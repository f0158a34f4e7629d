import Bootsh.Exec.Transparent
import Bootsh.Lib.Slash

/-!
The names that `updatepwd` makes have no components `.` and `..` if the name it starts from has
none. The one that comes from the environment is not looked at.
-/
namespace Bootsh

/-! ### Canonical names -/

def Proper (c : Text) : Prop := c ≠ [] ∧ c ≠ ['.'] ∧ c ≠ ['.', '.']

instance : DecidablePred Proper := fun _ => inferInstanceAs (Decidable (_ ∧ _ ∧ _))

/-- What follows the `/` or `//` at the front of an absolute name. -/
def afterRoot : Text → Option Text
  | '/' :: '/' :: s => some s
  | '/' :: s => some s
  | _ => none

/-- An absolute name without a component `.` or `..`, without an empty one and without a slash at
its end, but for the root. -/
def CanonicalName (s : Text) : Prop :=
  ∃ rest ∈ afterRoot s, rest = [] ∨ ∀ c ∈ rest.splitOn '/', Proper c

instance : DecidablePred CanonicalName := fun s =>
  inferInstanceAs (Decidable (∃ rest ∈ afterRoot s, _))

/-! ### The buffer of `updatepwd` -/

/-- The buffer has the root, of `lim` slashes, and some components. -/
structure Stacked (lim : ℕ) (new : Text) (cs : List Text) : Prop where
  root : lim = 1 ∨ lim = 2
  proper : ∀ c ∈ cs, Proper c ∧ '/' ∉ c
  eq : new = (List.replicate lim '/' ++ slashed cs).reverse

/-- The last component is taken away with its slash. -/
theorem backUp_component {lim : ℕ} {a : Char} {s rest : Text} (hs : '/' ∉ s)
    (hrest : rest.head? = some '/') (hlim : lim ≤ rest.length) :
    backUp lim (a :: (s ++ rest)) = rest := by
  induction s generalizing a with
  | nil =>
    rw [List.nil_append, backUp, if_pos (by simp; omega), if_pos hrest]
  | cons b s ih =>
    have hb : b ≠ '/' := by
      rintro rfl
      simp at hs
    rw [backUp, if_pos (by simp; omega), List.cons_append, if_neg (by simpa using hb)]
    exact ih fun hmem => hs (List.mem_cons_of_mem _ hmem)

theorem rooted_head {lim : ℕ} (hroot : lim = 1 ∨ lim = 2) (cs : List Text) :
    (List.replicate lim '/' ++ slashed cs).reverse.head? = some '/' := by
  rcases List.eq_nil_or_concat cs with rfl | ⟨cs, c, rfl⟩
  · rcases hroot with rfl | rfl <;> rfl
  · rw [List.concat_eq_append, slashed_concat]
    simp

section
variable {lim : ℕ} {new p : Text} {cs : List Text}

theorem Stacked.backUp (h : Stacked lim new cs) : Stacked lim (backUp lim new) cs.dropLast := by
  obtain ⟨hroot, hproper, heq⟩ := h
  refine ⟨hroot, fun c hc => hproper c (List.dropLast_subset cs hc), ?_⟩
  rcases List.eq_nil_or_concat cs with rfl | ⟨cs, c, rfl⟩
  · subst heq
    rcases hroot with rfl | rfl <;> rfl
  · have hc := (hproper c (by simp)).2
    rw [heq, List.concat_eq_append, List.dropLast_concat, slashed_concat, ← List.append_assoc,
      List.reverse_append, List.reverse_append, List.reverse_singleton, List.singleton_append]
    apply backUp_component
    · simpa using hc
    · exact rooted_head hroot cs
    · simp

theorem Stacked.push (h : Stacked lim new cs) (hp : Proper p) (hslash : '/' ∉ p) :
    Stacked lim ('/' :: (p.reverse ++ new)) (cs ++ [p]) := by
  obtain ⟨hroot, hproper, heq⟩ := h
  refine ⟨hroot, ?_, ?_⟩
  · intro c hc
    rcases List.mem_append.1 hc with hc | hc
    · exact hproper c hc
    · obtain rfl := List.mem_singleton.1 hc
      exact ⟨hp, hslash⟩
  · rw [heq, slashed_concat, ← List.append_assoc]
    simp

/-- What a component does to the ones before it. -/
def resolve (cs : List Text) (c : Text) : List Text :=
  if c = [] ∨ c = ['.'] then cs else if c = ['.', '.'] then cs.dropLast else cs ++ [c]

theorem resolve_proper {c : Text} (h : Proper c) : resolve cs c = cs ++ [c] := by
  rw [resolve, if_neg (by simp [h.1, h.2.1]), if_neg h.2.2]

theorem Stacked.putComponent (h : Stacked lim new cs) (hp : p ≠ []) (hslash : '/' ∉ p) :
    Stacked lim (putComponent lim new p) (resolve cs p) := by
  unfold Bootsh.putComponent
  by_cases hdotdot : p = ['.', '.']
  · subst hdotdot
    exact h.backUp
  · rw [if_neg hdotdot]
    by_cases hdot : p = ['.']
    · subst hdot
      exact h
    · rw [if_neg hdot, resolve_proper ⟨hp, hdot, hdotdot⟩]
      exact h.push ⟨hp, hdot, hdotdot⟩ hslash

/-- Components are put one after the other. -/
theorem Stacked.putAll {ps : List Text} (h : Stacked lim new cs)
    (hps : ∀ p ∈ ps, p ≠ [] ∧ '/' ∉ p) :
    Stacked lim (ps.foldl (Bootsh.putComponent lim) new) (ps.foldl resolve cs) := by
  induction ps generalizing new cs with
  | nil => exact h
  | cons p ps ih =>
    obtain ⟨hp, hslash⟩ := hps p List.mem_cons_self
    exact ih (h.putComponent hp hslash) fun q hq => hps q (List.mem_cons_of_mem p hq)

/-- The components of a name are put. -/
theorem Stacked.fold (h : Stacked lim new cs) (dir : Text) :
    Stacked lim ((strtok dir).foldl (Bootsh.putComponent lim) new)
      ((strtok dir).foldl resolve cs) := by
  apply h.putAll
  intro p hp
  obtain ⟨hmem, hne⟩ := List.mem_filter.1 hp
  exact ⟨by simpa using hne, slash_notMem_splitOn hmem⟩

theorem afterRoot_cons {c : Char} {s : Text} (h : c ≠ '/') : afterRoot ('/' :: c :: s) = some (c :: s) := by
  unfold afterRoot
  split
  case h_1 heq =>
    simp only [List.cons.injEq] at heq
    exact absurd heq.2.1 h
  case h_2 heq =>
    cases heq
    rfl
  case h_3 hno => exact absurd rfl (hno _)

/-- Components do not start with a slash. -/
theorem intercalate_head (hproper : ∀ c ∈ cs, Proper c ∧ '/' ∉ c) (hne : cs ≠ []) :
    ∃ c s, List.intercalate ['/'] cs = c :: s ∧ c ≠ '/' := by
  cases cs with
  | nil => exact absurd rfl hne
  | cons d cs =>
    obtain ⟨⟨hd, -, -⟩, hslash⟩ := hproper d (by simp)
    cases d with
    | nil => exact absurd rfl hd
    | cons c d =>
      have hc : c ≠ '/' := by
        rintro rfl
        simp at hslash
      cases cs with
      | nil => exact ⟨c, d, by simp, hc⟩
      | cons d' cs => exact ⟨c, _, by rw [List.intercalate_cons_cons]; rfl, hc⟩

/-- They do not end with one. -/
theorem intercalate_last (hproper : ∀ c ∈ cs, Proper c ∧ '/' ∉ c) (hne : cs ≠ []) (s : Text) :
    (s ++ List.intercalate ['/'] cs).getLast? ≠ some '/' := by
  rcases List.eq_nil_or_concat cs with rfl | ⟨cs, c, rfl⟩
  · exact absurd rfl hne
  · rw [List.concat_eq_append] at hproper hne ⊢
    obtain ⟨⟨hc, -, -⟩, hslash⟩ := hproper c (by simp)
    have htext : List.intercalate ['/'] (cs ++ [c]) = slashed cs ++ c := by
      have := slashed_eq_intercalate hne
      rw [slashed_concat, ← List.append_assoc] at this
      exact (List.append_cancel_right this).symm
    rw [htext, ← List.append_assoc, List.getLast?_append_of_ne_nil _ hc]
    intro hlast
    exact hslash (List.mem_of_getLast? hlast)

/-- The name in the buffer, without the slash at its end. -/
theorem Stacked.text (h : Stacked lim new cs) :
    (if lim < new.length then new.tail else new).reverse =
      List.replicate lim '/' ++ List.intercalate ['/'] cs := by
  obtain ⟨hroot, hproper, rfl⟩ := h
  by_cases hne : cs = []
  · subst hne
    rcases hroot with rfl | rfl <;> rfl
  · have hlen : lim < (List.replicate lim '/' ++ slashed cs).reverse.length := by
      rw [slashed_eq_intercalate hne, List.length_reverse, List.length_append,
        List.length_replicate, List.length_append, List.length_singleton]
      omega
    rw [if_pos hlen, slashed_eq_intercalate hne, ← List.append_assoc, List.reverse_append,
      List.reverse_singleton, List.singleton_append, List.tail_cons, List.reverse_reverse]

theorem Stacked.canonical (h : Stacked lim new cs) :
    CanonicalName (if lim < new.length then new.tail else new).reverse := by
  rw [h.text]
  obtain ⟨hroot, hproper, -⟩ := h
  by_cases hne : cs = []
  · subst hne
    rcases hroot with rfl | rfl
    · exact ⟨[], rfl, .inl rfl⟩
    · exact ⟨[], rfl, .inl rfl⟩
  · obtain ⟨c, s, hhead, hc⟩ := intercalate_head hproper hne
    refine ⟨List.intercalate ['/'] cs, ?_, .inr ?_⟩
    · rw [hhead]
      rcases hroot with rfl | rfl
      · exact afterRoot_cons hc
      · rfl
    · rw [List.splitOn_intercalate '/' (fun c hc => (hproper c hc).2) hne]
      exact fun c hc => (hproper c hc).1

end

/-- A canonical name is a root and components. -/
theorem CanonicalName.parts {s : Text} (h : CanonicalName s) :
    ∃ lim cs, (lim = 1 ∨ lim = 2) ∧ (∀ c ∈ cs, Proper c ∧ '/' ∉ c) ∧
      s = List.replicate lim '/' ++ List.intercalate ['/'] cs := by
  obtain ⟨rest, hrest, hproper⟩ := h
  have hs : ∃ lim, (lim = 1 ∨ lim = 2) ∧ s = List.replicate lim '/' ++ rest := by
    unfold afterRoot at hrest
    split at hrest
    case h_1 =>
      obtain rfl := Option.some.inj hrest
      exact ⟨2, .inr rfl, rfl⟩
    case h_2 =>
      obtain rfl := Option.some.inj hrest
      exact ⟨1, .inl rfl, rfl⟩
    case h_3 => cases hrest
  obtain ⟨lim, hlim, rfl⟩ := hs
  rcases hproper with rfl | hproper
  · exact ⟨lim, [], hlim, by simp, by simp⟩
  · refine ⟨lim, rest.splitOn '/', hlim, fun c hc => ⟨hproper c hc, slash_notMem_splitOn hc⟩, ?_⟩
    rw [List.intercalate_splitOn]

/-- The buffer for a name relative to a canonical one. -/
theorem updatepwdStart_relative {curdir : AbsPath} {dir : Text} {lim : ℕ} {cs : List Text}
    (hlim : lim = 1 ∨ lim = 2) (hproper : ∀ c ∈ cs, Proper c ∧ '/' ∉ c)
    (htext : curdir.text = List.replicate lim '/' ++ List.intercalate ['/'] cs)
    (hdir : dir.head? ≠ some '/') :
    ∃ new, updatepwdStart (some curdir) dir = some (new, lim) ∧ Stacked lim new cs := by
  rw [updatepwdStart, if_neg hdir, Option.map_some, htext]
  by_cases hne : cs = []
  · subst hne
    rcases hlim with rfl | rfl
    · exact ⟨_, rfl, .inl rfl, by simp, rfl⟩
    · exact ⟨_, rfl, .inr rfl, by simp, rfl⟩
  · obtain ⟨c, s, hhead, hc⟩ := intercalate_head hproper hne
    rw [if_neg (intercalate_last hproper hne _), List.append_assoc, ← slashed_eq_intercalate hne]
    have hslashed : slashed cs = c :: (s ++ ['/']) := by
      rw [slashed_eq_intercalate hne, hhead, List.cons_append]
    rcases hlim with rfl | rfl
    · rw [hslashed]
      dsimp only
      rw [if_neg (by simpa using hc)]
      exact ⟨_, rfl, .inl rfl, hproper, by rw [hslashed]⟩
    · dsimp only
      rw [if_pos (by simp)]
      exact ⟨_, rfl, .inr rfl, hproper, rfl⟩

/-- The buffer that the components of a name are put into. -/
theorem updatepwdStart_stacked {curdir : Option AbsPath} {dir new : Text} {lim : ℕ}
    (hcur : ∀ p, curdir = some p → CanonicalName p.text)
    (h : updatepwdStart curdir dir = some (new, lim)) : ∃ cs, Stacked lim new cs := by
  by_cases hdir : dir.head? = some '/'
  · rw [updatepwdStart, if_pos hdir] at h
    split at h
    · cases h
      exact ⟨[], .inr rfl, by simp, rfl⟩
    · cases h
      exact ⟨[], .inl rfl, by simp, rfl⟩
  · cases curdir with
    | none =>
      rw [updatepwdStart, if_neg hdir] at h
      cases h
    | some p =>
      obtain ⟨lim', cs, hlim, hproper, htext⟩ := (hcur p rfl).parts
      obtain ⟨new', hstart, hstacked⟩ := updatepwdStart_relative hlim hproper htext hdir
      rw [hstart] at h
      cases h
      exact ⟨cs, hstacked⟩

theorem updatepwd_canonical {curdir : Option AbsPath} {dir : Text} {p : AbsPath}
    (hcur : ∀ p, curdir = some p → CanonicalName p.text) (h : updatepwd curdir dir = some p) :
    CanonicalName p.text := by
  unfold updatepwd at h
  split at h
  case h_1 => cases h
  case h_2 new lim hstart =>
    cases h
    obtain ⟨cs, hcs⟩ := updatepwdStart_stacked hcur hstart
    exact (hcs.fold dir).canonical

/-! ### The shell -/

/-- `curdir` and `PWD` are canonical, or empty where the directory is not known. -/
structure Shell.CanonicalDirs {Dir Func : Type} (st : Shell Dir Func) : Prop where
  curdir : ∀ p, st.curdir = some p → CanonicalName p.text
  pwd : ∀ s, st.value pwdName = some s → s = [] ∨ CanonicalName s

/-- Variables are assigned and so on, but for `PWD`. -/
def Shell.LeavesPwd {Dir Func : Type} (st : Shell Dir Func) : CmdOp Func → Prop
  | .var op => (st.varOp op).2.value pwdName = st.value pwdName
  | _ => True

/-- The name in `PWD` that `INIT` takes over. -/
def inheritedPwd (root : Bool) (environ : List Text) (ppid : Text) (samedir : AbsPath → Bool) :
    Option AbsPath :=
  (lookupvar pwdName (initVars root environ ppid)).1.bind fun p =>
    if h : p.head? = some '/' then if samedir ⟨p, h⟩ then some ⟨p, h⟩ else none else none

section
variable {Dir Func : Type} {w : World Dir Func} {st : Shell Dir Func}

theorem dirText_canonical {dir : Option AbsPath} (h : ∀ p, dir = some p → CanonicalName p.text) :
    dirText dir = [] ∨ CanonicalName (dirText dir) := by
  cases dir with
  | none => exact .inl rfl
  | some p => exact .inr (h p rfl)

/-- `cd` gives `curdir` a canonical name, and the same to `PWD`, or leaves it as it is. -/
theorem cdcmd_canonical {files : Files Dir}
    (hgetcwd : ∀ d p, files.getcwd d = some p → CanonicalName p.text) (args : List Text)
    (h : st.CanonicalDirs) : (cdcmd files args st).2.CanonicalDirs := by
  cases htarget : cdTarget files args st with
  | error msg =>
    rw [cdcmd_error htarget]
    exact h
  | ok target =>
    rw [cdcmd_target htarget]
    cases hchdir : files.chdir st.cwd
        (((cdDir target.path target.physical st).map AbsPath.text).getD target.path) with
    | error e =>
      rw [docd_failed hchdir]
      exact h
    | ok cwd =>
      have hnew : ∀ p, (newDirs files cwd (cdDir target.path target.physical st)).1 = some p →
          CanonicalName p.text := by
        intro p hp
        cases hdir : cdDir target.path target.physical st with
        | none =>
          rw [hdir] at hp
          exact hgetcwd cwd p hp
        | some dir =>
          rw [hdir] at hp
          obtain rfl := Option.some.inj hp
          unfold cdDir at hdir
          split at hdir
          · cases hdir
          · exact updatepwd_canonical h.curdir hdir
      cases hold : st.readonly oldpwdName with
      | true =>
        rw [docd_readonly_oldpwd hchdir hold]
        exact ⟨h.curdir, h.pwd⟩
      | false =>
        cases hro : st.readonly pwdName with
        | true =>
          obtain ⟨st₁, hsets, hdocd⟩ := docd_readonly_pwd hchdir hold hro
          rw [hdocd]
          refine ⟨hnew, fun s hs => h.pwd s ?_⟩
          rw [← hs]
          exact (hsets.others pwdName (by decide)).symm
        | false =>
          obtain ⟨st₁, st₂, -, hsets₂, hdocd⟩ := docd_done hchdir hold hro
          rw [hdocd]
          constructor
          · intro p hp
            exact hnew p (hsets₂.curdir.symm.trans hp)
          · intro s hs
            obtain rfl := Option.some.inj (hsets₂.value.symm.trans hs)
            exact dirText_canonical hnew

theorem callHooks_curdir (calls : List (VarFunc × Text)) (st : Shell Dir Func) :
    (calls.foldr Shell.callHook st).curdir = st.curdir := by
  induction calls with
  | nil => rfl
  | cons c calls ih =>
    obtain ⟨func, value⟩ := c
    cases func <;> exact ih

theorem withVars_curdir {vars : Vars} (hooks : vars.Hooks) :
    (st.withVars vars hooks).curdir = st.curdir :=
  callHooks_curdir vars.called _

theorem withVars_vars {vars : Vars} (hooks : vars.Hooks) :
    (st.withVars vars hooks).vars = { vars with called := [] } :=
  (callHooks_run vars.called
    { st with vars := { vars with called := [] }, hooks := hooks.same rfl rfl, quiet := rfl }).vars

theorem cmdStep_canonical (hgetcwd : ∀ d p, w.files.getcwd d = some p → CanonicalName p.text)
    (op : CmdOp Func) (h : st.CanonicalDirs) (hop : st.LeavesPwd op) :
    (st.cmdStep w op).2.CanonicalDirs := by
  cases op with
  | var op =>
    refine ⟨fun p hp => h.curdir p ?_, fun s hs => h.pwd s ?_⟩
    · rw [← hp]
      exact (withVars_curdir (st.hooks.step op)).symm
    · rw [← hs]
      exact hop.symm
  | cd args => exact cdcmd_canonical hgetcwd args h
  | hash name =>
    change (st.hashName w name).CanonicalDirs
    unfold Shell.hashName
    split
    · split <;> exact ⟨h.curdir, h.pwd⟩
    · exact ⟨h.curdir, h.pwd⟩
  | defun name func | unsetfunc name | hashClear | lookup name act path =>
    exact ⟨h.curdir, h.pwd⟩

end

/-! ### The start -/

/-- No variable is readonly. -/
def Vars.Writable (st : Vars) : Prop :=
  ∀ name vp, st.findvar name = some vp → vp.flags.readonly = false

theorem Vars.Writable.store {st : Vars} {name : Text} {vp : Var} (h : st.Writable)
    (hvp : vp.flags.readonly = false) : (st.store name vp).Writable := by
  intro n v hfind
  rw [findvar_store] at hfind
  split at hfind
  · obtain rfl := Option.some.inj hfind
    exact hvp
  · exact h n v hfind

theorem Vars.Writable.setvareqVal {st st' : Vars} {name : Text} {value : Option Val}
    {flags : VFlags} (h : st.Writable) (hflags : flags.readonly = false)
    (hok : setvareqVal name value flags st = .ok st') : st'.Writable := by
  unfold Bootsh.setvareqVal at hok
  have haflag : (if st.aflag then flags ||| VFlags.vexport else flags).readonly = false := by
    split
    · simp [hflags]
    · exact hflags
  generalize (if st.aflag then flags ||| VFlags.vexport else flags) = flags at hok haflag
  dsimp only at hok
  split at hok
  case h_1 vp hfind =>
    have hvp := h name vp hfind
    have hcall : (if flags.nofunc then st else st.callFunc vp.func value).Writable := by
      split
      · exact h
      · intro n v hv
        rw [findvar, callFunc_vartab] at hv
        exact h n v hv
    rw [if_neg (by simp [hvp])] at hok
    split at hok
    · obtain rfl := Except.ok.inj hok
      exact hcall.store (by simp [haflag, hvp])
    · split at hok
      · obtain rfl := Except.ok.inj hok
        exact hcall.store (by simp [haflag, hvp])
      · obtain rfl := Except.ok.inj hok
        intro n v hv
        rw [findvar_delete] at hv
        split at hv
        · cases hv
        · exact hcall n v hv
  case h_2 =>
    split at hok
    · obtain rfl := Except.ok.inj hok
      exact h
    · obtain rfl := Except.ok.inj hok
      exact h.store haflag

theorem Vars.Writable.importVar {st : Vars} {s : Text} {flags : VFlags} (h : st.Writable)
    (hflags : flags.readonly = false) : (importVar s flags st).Writable := by
  unfold Bootsh.importVar
  cases hset : setvareq s flags st with
  | ok st' => exact h.setvareqVal hflags hset
  | error msg => exact h

theorem initVars_writable (root : Bool) (environ : List Text) (ppid : Text) :
    (initVars root environ ppid).Writable := by
  have hinit : (initvar root).Writable := by
    intro name vp hfind
    have hnodup : (Chain.keys (varinit root)).Nodup := by
      cases root <;> decide
    have hnot : ∀ p ∈ varinit root, p.2.flags.readonly = false := by
      cases root <;> decide
    rw [Vars.findvar_initvar] at hfind
    exact hnot (name, vp) ((Chain.mem_iff_find hnodup).2 hfind)
  have henv : (environ.foldl importEnv (initvar root)).Writable := by
    apply List.foldlRecOn environ importEnv hinit
    intro st hst s _
    unfold importEnv
    split
    · exact hst.importVar rfl
    · exact hst
  exact ((henv.importVar rfl).importVar rfl).importVar rfl

section
variable {Dir Func : Type} {files : Files Dir}

theorem initShell_dirs (root : Bool) (environ : List Text) (ppid : Text) (cwd : Dir)
    (samedir : AbsPath → Bool) :
    (initShell files root environ ppid cwd samedir : Shell Dir Func).curdir =
        (newDirs files cwd (inheritedPwd root environ ppid samedir)).1 ∧
      (initShell files root environ ppid cwd samedir : Shell Dir Func).value pwdName =
        some (dirText (newDirs files cwd (inheritedPwd root environ ppid samedir)).1) := by
  unfold initShell
  dsimp only
  generalize hst : Shell.withVars (initVars root environ ppid) _ _ = st
  have hvars : st.vars = { initVars root environ ppid with called := [] } := by
    rw [← hst]
    exact withVars_vars _
  have hcwd : st.cwd = cwd := by
    rw [← hst]
    exact (callHooks_run _ _).cwd
  have hlookup : (lookupvar pwdName st.vars).1 =
      (lookupvar pwdName (initVars root environ ppid)).1 := by
    rw [hvars]
    exact Vars.lookupvar_called _ _ _
  have hro : ∀ dirs, ((st.withDirs dirs).vars.entry pwdName).readonly = false := by
    intro dirs
    change (st.vars.entry pwdName).readonly = false
    rw [hvars]
    change ((((initVars root environ ppid).findvar pwdName).map Var.entry).getD .absent).readonly =
      false
    cases hfind : (initVars root environ ppid).findvar pwdName with
    | none => rfl
    | some vp => exact initVars_writable root environ ppid pwdName vp hfind
  rw [hlookup]
  change (setpwd files (inheritedPwd root environ ppid samedir) false st).2.curdir = _ ∧
    (setpwd files (inheritedPwd root environ ppid samedir) false st).2.value pwdName = _
  have hset : setpwd files (inheritedPwd root environ ppid samedir) false st =
      (st.withDirs (newDirs files cwd (inheritedPwd root environ ppid samedir))).varOp
        (.setvar pwdName (some (dirText (newDirs files cwd
          (inheritedPwd root environ ppid samedir)).1)) VFlags.vexport) := by
    unfold setpwd
    rw [if_neg Bool.false_ne_true, ← hcwd]
    cases inheritedPwd root environ ppid samedir <;> rfl
  obtain ⟨st', hvar, hsets⟩ := @Shell.varOp_set _ _
    (st.withDirs (newDirs files cwd (inheritedPwd root environ ppid samedir))) pwdName
    (dirText (newDirs files cwd (inheritedPwd root environ ppid samedir)).1) VFlags.vexport
    (by decide) (by decide) (by decide) rfl (hro _)
  rw [hset, hvar]
  exact ⟨hsets.curdir, hsets.value⟩

/-- In every run, `curdir` and `PWD` are canonical after the start and after each command if and
only if the name in `PWD` that is taken over at the start is. -/
theorem cd_canonical_iff (w : World Dir Func)
    (hgetcwd : ∀ d p, w.files.getcwd d = some p → CanonicalName p.text) (root : Bool)
    (environ : List Text) (ppid : Text) (cwd : Dir) (samedir : AbsPath → Bool)
    (ops : List (CmdOp Func))
    (hops : Run.Along (Shell.cmdStep w) Shell.LeavesPwd
      (initShell w.files root environ ppid cwd samedir) ops) :
    (∀ ops', ops' <+: ops → (Run.run (Shell.cmdStep w)
        (initShell w.files root environ ppid cwd samedir) ops').2.CanonicalDirs) ↔
      ∀ p, inheritedPwd root environ ppid samedir = some p → CanonicalName p.text := by
  obtain ⟨hcur, hpwd⟩ := @initShell_dirs _ Func w.files root environ ppid cwd samedir
  constructor
  · intro h p hp
    apply (h [] List.nil_prefix).curdir p
    change (initShell w.files root environ ppid cwd samedir : Shell Dir Func).curdir = some p
    rw [hcur, hp]
    rfl
  · intro h ops' hle
    apply Run.run_invariant (fun st op hst hop => cmdStep_canonical hgetcwd op hst hop) ?_
      (hops.of_prefix hle)
    have hnew : ∀ p, (newDirs w.files cwd (inheritedPwd root environ ppid samedir)).1 = some p →
        CanonicalName p.text := by
      intro p hp
      cases hdir : inheritedPwd root environ ppid samedir with
      | none =>
        rw [hdir] at hp
        exact hgetcwd cwd p hp
      | some dir =>
        rw [hdir] at hp
        obtain rfl := Option.some.inj hp
        exact h dir hdir
    constructor
    · intro p hp
      rw [hcur] at hp
      exact hnew p hp
    · intro s hs
      rw [hpwd] at hs
      obtain rfl := Option.some.inj hs
      exact dirText_canonical hnew

theorem twoDirs_getcwd (d : Bool) (p : AbsPath) (h : twoDirs.getcwd d = some p) :
    CanonicalName p.text := by
  obtain rfl := Option.some.inj h
  cases d <;> decide

/-- `CDPATH=..:/a; cd ../b//./c` -/
def cdBelow : List (CmdOp Unit) :=
  [.var (.setvar "CDPATH".toList (some "..:/a".toList) VFlags.zero), .cd ["../b//./c".toList]]

theorem cd_canonical_below :
    (Run.run (Shell.cmdStep twoDirsWorld) (initShell twoDirs false ["PWD=/a".toList] "1".toList true
        fun _ => true) cdBelow).2.curdir = some ⟨"/b/c".toList, rfl⟩ ∧
      ∀ ops', ops' <+: cdBelow → (Run.run (Shell.cmdStep twoDirsWorld)
        (initShell twoDirs false ["PWD=/a".toList] "1".toList true fun _ => true)
        ops').2.CanonicalDirs := by
  refine ⟨by decide +kernel, (cd_canonical_iff twoDirsWorld twoDirs_getcwd false _ _ _ _ cdBelow
    ⟨?_, trivial, trivial⟩).2 ?_⟩
  · change (Shell.varOp _ _).2.value pwdName = Shell.value _ pwdName
    decide +kernel
  · intro p hp
    obtain rfl : p = ⟨"/a".toList, rfl⟩ := by
      have hinherited : inheritedPwd false ["PWD=/a".toList] "1".toList (fun _ => true) =
          some ⟨"/a".toList, rfl⟩ := by decide +kernel
      exact Option.some.inj (hp.symm.trans hinherited)
    decide

/-- With `PWD=/a/.` in the environment, `curdir` keeps the component, and `cd ..` takes it off in
place of the directory. -/
theorem cd_not_canonical :
    let st : Shell Bool Unit := initShell twoDirs false ["PWD=/a/.".toList] "1".toList true
      fun _ => true
    ¬st.CanonicalDirs ∧
      (st.cmdStep twoDirsWorld (.cd ["..".toList])).2.curdir = some ⟨"/a".toList, rfl⟩ := by
  intro st
  have hcur : st.curdir = some ⟨"/a/.".toList, rfl⟩ := by decide +kernel
  refine ⟨fun h => ?_, by decide +kernel⟩
  exact absurd (h.curdir _ hcur) (by decide)

end
end Bootsh
