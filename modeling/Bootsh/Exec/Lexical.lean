import Bootsh.Exec.Canonical

/-!
`updatepwd` normalises a name lexically: what it does to its buffer is what the components of the
name say.
-/
namespace Bootsh

/-- How many slashes of a name are its root: two if there are exactly two, else one. -/
def rootSlashes : Text → ℕ
  | '/' :: '/' :: '/' :: _ => 1
  | '/' :: '/' :: _ => 2
  | _ => 1

/-- The name of `dir` in the directory `curdir`, by its components alone. -/
def lexicalPath (curdir dir : Text) : Text :=
  if dir.head? = some '/' then
    List.replicate (rootSlashes dir) '/' ++
      List.intercalate ['/'] ((dir.splitOn '/').foldl resolve [])
  else
    List.replicate (rootSlashes curdir) '/' ++
      List.intercalate ['/'] (((curdir ++ '/' :: dir).splitOn '/').foldl resolve [])

section
variable {cs ps : List Text} {lim : ℕ}

/-- Empty components do not count. -/
theorem foldl_resolve_strtok (cs : List Text) (s : Text) :
    (strtok s).foldl resolve cs = (s.splitOn '/').foldl resolve cs := by
  rw [strtok]
  generalize s.splitOn '/' = ps
  induction ps generalizing cs with
  | nil => rfl
  | cons p ps ih =>
    by_cases hp : p = []
    · subst hp
      exact ih cs
    · rw [List.filter_cons_of_pos (by simpa using hp), List.foldl_cons, ih, List.foldl_cons]

theorem foldl_resolve_proper (hps : ∀ p ∈ ps, Proper p) : ps.foldl resolve cs = cs ++ ps := by
  induction ps generalizing cs with
  | nil => simp
  | cons p ps ih =>
    rw [List.foldl_cons, resolve_proper (hps p List.mem_cons_self),
      ih fun q hq => hps q (List.mem_cons_of_mem p hq), List.append_assoc, List.singleton_append]

/-- The components of a canonical name are the ones it is made of. -/
theorem foldl_resolve_canonical (hproper : ∀ c ∈ cs, Proper c ∧ '/' ∉ c) :
    ((List.replicate lim '/' ++ List.intercalate ['/'] cs).splitOn '/').foldl resolve [] = cs := by
  induction lim with
  | zero =>
    by_cases hne : cs = []
    · subst hne
      rfl
    · rw [List.replicate_zero, List.nil_append,
        List.splitOn_intercalate '/' (fun c hc => (hproper c hc).2) hne,
        foldl_resolve_proper fun c hc => (hproper c hc).1, List.nil_append]
  | succ lim ih =>
    rw [List.replicate_succ, List.cons_append, List.splitOn_cons_eq_if_modifyHead]
    exact ih

/-- The slashes at the front of a canonical name are its root. -/
theorem rootSlashes_canonical (hlim : lim = 1 ∨ lim = 2)
    (hproper : ∀ c ∈ cs, Proper c ∧ '/' ∉ c) :
    rootSlashes (List.replicate lim '/' ++ List.intercalate ['/'] cs) = lim := by
  by_cases hne : cs = []
  · subst hne
    rcases hlim with rfl | rfl <;> rfl
  · obtain ⟨c, s, hhead, hc⟩ := intercalate_head hproper hne
    rw [hhead]
    rcases hlim with rfl | rfl
    · show rootSlashes ('/' :: c :: s) = 1
      unfold rootSlashes
      split
      · rfl
      · rename_i heq
        simp only [List.cons.injEq] at heq
        exact absurd heq.2.1 hc
      · rfl
    · show rootSlashes ('/' :: '/' :: c :: s) = 2
      unfold rootSlashes
      split
      · rename_i heq
        simp only [List.cons.injEq] at heq
        exact absurd heq.2.2.1 hc
      · rfl
      · rename_i hno
        exact absurd rfl (hno _)

end

/-! ### The two cases of the operand -/

theorem updatepwd_of_stacked {curdir : Option AbsPath} {dir new : Text} {lim : ℕ} {cs : List Text}
    (hstart : updatepwdStart curdir dir = some (new, lim)) (h : Stacked lim new cs) :
    ∃ p, updatepwd curdir dir = some p ∧ p.text = List.replicate lim '/' ++
      List.intercalate ['/'] ((dir.splitOn '/').foldl resolve cs) := by
  unfold updatepwd
  split
  case h_1 hnone =>
    rw [hstart] at hnone
    cases hnone
  case h_2 new' lim' hsome =>
    obtain ⟨rfl, rfl⟩ := Prod.mk.inj (Option.some.inj (hstart.symm.trans hsome))
    refine ⟨_, rfl, ?_⟩
    rw [← foldl_resolve_strtok]
    exact (h.fold dir).text

/-- Whether there are exactly two slashes, as `updatepwd` finds out. -/
theorem rootSlashes_eq {dir : Text} (hdir : dir.head? = some '/') :
    rootSlashes dir = if dir[1]? = some '/' ∧ dir[2]? ≠ some '/' then 2 else 1 := by
  unfold rootSlashes
  split
  · rw [if_neg (by simp)]
  · rename_i s hs
    rw [if_pos]
    refine ⟨rfl, fun hthird => ?_⟩
    cases s with
    | nil => cases hthird
    | cons c s =>
      obtain rfl : c = '/' := Option.some.inj hthird
      exact hs s rfl
  · rename_i htwo
    rw [if_neg]
    rintro ⟨hsecond, -⟩
    cases dir with
    | nil => cases hdir
    | cons c dir =>
      cases dir with
      | nil => cases hsecond
      | cons d dir =>
        obtain rfl : c = '/' := Option.some.inj hdir
        obtain rfl : d = '/' := Option.some.inj hsecond
        exact htwo dir rfl

theorem updatepwdStart_absolute (curdir : Option AbsPath) {dir : Text}
    (hdir : dir.head? = some '/') :
    ∃ new, updatepwdStart curdir dir = some (new, rootSlashes dir) ∧
      Stacked (rootSlashes dir) new [] := by
  rw [updatepwdStart, if_pos hdir, rootSlashes_eq hdir]
  by_cases htwo : dir[1]? = some '/' ∧ dir[2]? ≠ some '/'
  · rw [if_pos htwo, if_pos htwo]
    exact ⟨_, rfl, .inr rfl, by simp, rfl⟩
  · rw [if_neg htwo, if_neg htwo]
    exact ⟨_, rfl, .inl rfl, by simp, rfl⟩

/-- For an operand that is absolute the current directory does not matter. -/
theorem updatepwd_absolute (curdir : Option AbsPath) {dir : Text} (hdir : dir.head? = some '/') :
    ∃ p, updatepwd curdir dir = some p ∧ p.text = List.replicate (rootSlashes dir) '/' ++
      List.intercalate ['/'] ((dir.splitOn '/').foldl resolve []) := by
  obtain ⟨new, hstart, hnew⟩ := updatepwdStart_absolute curdir hdir
  exact updatepwd_of_stacked hstart hnew

/-- A canonical name is a fixed point. -/
theorem updatepwd_fixed (curdir : Option AbsPath) {p : AbsPath} (h : CanonicalName p.text) :
    updatepwd curdir p.text = some p := by
  obtain ⟨q, hq, htext⟩ := updatepwd_absolute curdir p.abs
  obtain ⟨lim, cs, hlim, hproper, hp⟩ := h.parts
  rw [hp, rootSlashes_canonical hlim hproper, foldl_resolve_canonical hproper] at htext
  rw [hq]
  exact congrArg some (AbsPath.ext (htext.trans hp.symm))

/-- In a directory with a canonical name, `updatepwd` gives the lexical name of its operand, and
that name is one that it leaves as it is. -/
theorem updatepwd_lexical (curdir : AbsPath) (hcur : CanonicalName curdir.text) (dir : Text) :
    ∃ p, updatepwd (some curdir) dir = some p ∧ p.text = lexicalPath curdir.text dir ∧
      ∀ curdir', updatepwd curdir' p.text = some p := by
  have hlexical : ∃ p, updatepwd (some curdir) dir = some p ∧
      p.text = lexicalPath curdir.text dir := by
    by_cases hdir : dir.head? = some '/'
    · rw [lexicalPath, if_pos hdir]
      exact updatepwd_absolute (some curdir) hdir
    · obtain ⟨lim, cs, hlim, hproper, htext⟩ := hcur.parts
      obtain ⟨new, hstart, hnew⟩ := updatepwdStart_relative hlim hproper htext hdir
      obtain ⟨p, hp, hptext⟩ := updatepwd_of_stacked hstart hnew
      refine ⟨p, hp, ?_⟩
      rw [hptext, lexicalPath, if_neg hdir, htext, rootSlashes_canonical hlim hproper,
        List.splitOn_append_cons_self, List.foldl_append, foldl_resolve_canonical hproper]
  obtain ⟨p, hp, htext⟩ := hlexical
  have hcanonical : CanonicalName p.text := by
    apply updatepwd_canonical (fun q hq => ?_) hp
    obtain rfl := Option.some.inj hq
    exact hcur
  exact ⟨p, hp, htext, fun curdir' => updatepwd_fixed curdir' hcanonical⟩

/-- From the directory `//a/b` with the operand `.././/../../c/`. -/
theorem updatepwd_lexical_above :
    lexicalPath "//a/b".toList ".././/../../c/".toList = "//c".toList ∧
      ∃ p, updatepwd (some ⟨"//a/b".toList, rfl⟩) ".././/../../c/".toList = some p ∧
        p.text = lexicalPath "//a/b".toList ".././/../../c/".toList ∧
        ∀ curdir', updatepwd curdir' p.text = some p :=
  ⟨by decide, updatepwd_lexical ⟨"//a/b".toList, rfl⟩ (by decide) ".././/../../c/".toList⟩

end Bootsh
