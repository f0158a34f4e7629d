import Bootsh.Exec.Command

/-!
What `find_command` answers, and what may stand in the command table for its answers to be
those of a search that starts afresh. Paths with `%func` are left out here.
-/
namespace Bootsh

variable {Dir Func : Type}

/-- The entry is a directory with the command as an executable file. -/
def hit (files : Files Dir) (cwd : Dir) (a : Expansion) : Bool :=
  a.pathopt.isNone && match files.stat cwd a.fullname with
    | .ok statb => testExec files cwd a.fullname statb
    | .error _ => false

/-- No entry of the path names a file of functions. -/
def NoFunc (path : Text) : Prop :=
  ∀ name, ∀ a ∈ expansions name 1 path, a.pathopt.isSome → a.pathopt.bind List.head? = some 'b'

theorem not_mem_dropWhile {path : Text} {p : Char → Bool} {c : Char} (h : c ∉ path) :
    c ∉ path.dropWhile p := fun hmem => h ((List.dropWhile_sublist _).mem hmem)

theorem padvanceMagic_plain {path name : Text} {magic : ℕ} (h : '%' ∉ path) :
    (padvanceMagic path name magic).pathopt = none ∧
      (padvanceMagic path name magic).rest =
        afterColon (path.dropWhile fun c => !(['%', ':'] : Text).contains c) := by
  have hlead : leadingOpt path magic = (none, path, ['%', ':']) := by
    unfold leadingOpt
    split
    · simp at h
    · rfl
  unfold padvanceMagic
  rw [hlead]
  dsimp only
  unfold trailingOpt
  dsimp only
  split
  case h_1 hdrop =>
    have hrest := @not_mem_dropWhile _ (fun c => !(['%', ':'] : Text).contains c) _ h
    rw [hdrop] at hrest
    simp at hrest
  case h_2 => exact ⟨rfl, rfl⟩

/-- Without a `%` there are no options. -/
theorem noFunc_of_no_percent {path : Text} (h : '%' ∉ path) : NoFunc path := by
  intro name
  induction hlen : path.length using Nat.strong_induction_on generalizing path with
  | _ n ih =>
    obtain ⟨hopt, hrest⟩ := @padvanceMagic_plain path name 1 h
    intro a ha hsome
    rw [expansions] at ha
    split at ha
    case h_1 =>
      obtain rfl := List.mem_singleton.1 ha
      simp [hopt] at hsome
    case h_2 rest heq =>
      rcases List.mem_cons.1 ha with rfl | ha
      · simp [hopt] at hsome
      · have hno : '%' ∉ rest := by
          intro hmem
          rw [hrest] at heq
          unfold afterColon at heq
          split at heq
          case h_1 hdrop =>
            obtain rfl := Option.some.inj heq
            refine @not_mem_dropWhile _ (fun c => !(['%', ':'] : Text).contains c) _ h ?_
            rw [hdrop]
            exact List.mem_cons_of_mem _ hmem
          case h_2 => cases heq
        have hlt := padvanceMagic_rest_length heq
        exact ih rest.length (by omega) hno rfl a ha hsome

def firstHit (files : Files Dir) (cwd : Dir) (path name : Text) : Option ℕ :=
  (expansions name 1 path).findIdx? (hit files cwd)

/-- The answer without the table. -/
def freshEntry (w : World Dir Func) (cwd : Dir) (path name : Text) (act : Act) : CmdEntry Func :=
  match findBuiltin name with
  | some bcmd => .builtin bcmd
  | none =>
    if act.regbltin then .unknown
    else match firstHit w.files cwd path name with
      | some idx => .normal (some idx)
      | none => if w.inProcess name then .normal none else .unknown

/-! ### The search of the path -/

/-- The index that a search finds. -/
def Search.index (prev : Option ℕ) : Search → Option ℕ
  | .unchanged => prev
  | .found idx => some idx
  | .funcfile _ | .failed _ => none

theorem hit_abs {files : Files Dir} {a : Expansion} (habs : a.fullname.head? = some '/')
    (cwd cwd' : Dir) : hit files cwd a = hit files cwd' a := by
  unfold hit testExec
  rw [files.stat_abs cwd cwd' ⟨_, habs⟩]
  simp only [files.access_abs cwd cwd' ⟨_, habs⟩]

theorem hit_pathopt {files : Files Dir} {a : Expansion} {cwd : Dir} (h : a.pathopt.isSome) :
    hit files cwd a = false := by
  rw [hit, Option.isNone_eq_false_iff.2 h, Bool.false_and]

/-- `prev` is where the command was found before, possibly from another directory. -/
def PrevOk (files : Files Dir) (prev : Option ℕ) (idx : ℕ) (l : List Expansion) : Prop :=
  ∀ p, prev = some p → idx ≤ p → ∃ cwd k, l.findIdx? (hit files cwd) = some k ∧ p = idx + k

theorem PrevOk.tail {files : Files Dir} {prev : Option ℕ} {idx : ℕ} {a : Expansion}
    {l : List Expansion} (h : PrevOk files prev idx (a :: l)) : PrevOk files prev (idx + 1) l := by
  intro p hp hle
  obtain ⟨cwd, k, hk, rfl⟩ := h p hp (by omega)
  rw [List.findIdx?_cons] at hk
  split at hk
  · obtain rfl := Option.some.inj hk
    omega
  · obtain ⟨j, hj, rfl⟩ := Option.map_eq_some_iff.1 hk
    exact ⟨cwd, j, hj, by omega⟩

theorem findIdx_cons_hit {files : Files Dir} {cwd : Dir} {a : Expansion} {l : List Expansion}
    (h : hit files cwd a = true) : (a :: l).findIdx? (hit files cwd) = some 0 := by
  rw [List.findIdx?_cons, if_pos h]

theorem findIdx_cons_miss {files : Files Dir} {cwd : Dir} {a : Expansion} {l : List Expansion}
    (h : hit files cwd a = false) (idx : ℕ) :
    ((a :: l).findIdx? (hit files cwd)).map (idx + ·) =
      (l.findIdx? (hit files cwd)).map (idx + 1 + ·) := by
  rw [List.findIdx?_cons, h, if_neg Bool.false_ne_true, Option.map_map]
  congr 1
  funext k
  simp only [Function.comp_apply]
  omega

/-- The search ends at what it was to find. -/
structure SearchOk (prev found : Option ℕ) (s : Search) : Prop where
  index : s.index prev = found
  unchanged : s = .unchanged → prev.isSome
  funcfile : ∀ fullname, s ≠ .funcfile fullname

/-- A search finds the first hit, whether it starts afresh or from a previous one: what
stands before that under an absolute name has not changed. -/
theorem searchPath_index {files : Files Dir} (cwd : Dir) (nofunc : Bool) {prev : Option ℕ}
    {idx : ℕ} (e : Errno) {l : List Expansion}
    (hl : ∀ a ∈ l, a.pathopt.isSome → a.pathopt.bind List.head? = some 'b')
    (hprev : PrevOk files prev idx l) :
    SearchOk prev ((l.findIdx? (hit files cwd)).map (idx + ·))
      (searchPath files cwd nofunc prev idx e l) := by
  induction l generalizing idx e with
  | nil => exact ⟨rfl, by simp [searchPath], by simp [searchPath]⟩
  | cons a l ih =>
    have hrest := fun e => @ih (idx + 1) e (fun b hb => hl b (List.mem_cons_of_mem _ hb)) hprev.tail
    rw [searchPath]
    split
    case isTrue hopt =>
      rw [Bool.and_eq_true] at hopt
      rw [findIdx_cons_miss (hit_pathopt hopt.1)]
      exact hrest e
    case isFalse hopt =>
      have hnone : a.pathopt.isNone := by
        by_contra hsome
        have hsome : a.pathopt.isSome :=
          Option.isSome_iff_ne_none.2 fun heq => hsome (Option.isNone_iff_eq_none.2 heq)
        exact hopt (by simp [hsome, hl a List.mem_cons_self hsome])
      split
      case isTrue habs =>
        obtain ⟨habs, hle⟩ := habs
        obtain ⟨p, rfl, hle⟩ := (Option.any_eq_true _ _).1 hle
        have hle : idx ≤ p := of_decide_eq_true hle
        obtain ⟨cwd', k, hk, rfl⟩ := hprev p rfl hle
        split
        case isTrue heq =>
          obtain rfl : k = 0 := by
            have := Option.some.inj heq
            omega
          have hhit : hit files cwd a = true := by
            rw [hit_abs habs cwd cwd']
            rw [List.findIdx?_cons] at hk
            split at hk
            case isTrue hhit => exact hhit
            case isFalse =>
              obtain ⟨j, -, hj⟩ := Option.map_eq_some_iff.1 hk
              omega
          rw [findIdx_cons_hit hhit]
          exact ⟨rfl, fun _ => rfl, by simp⟩
        case isFalse hne =>
          have hmiss : hit files cwd a = false := by
            rw [hit_abs habs cwd cwd', Bool.eq_false_iff]
            intro hhit
            rw [findIdx_cons_hit hhit] at hk
            obtain rfl := Option.some.inj hk
            exact hne rfl
          rw [findIdx_cons_miss hmiss]
          exact hrest e
      case isFalse =>
        split
        case h_1 errno hstat =>
          rw [findIdx_cons_miss (by simp [hit, hstat])]
          exact hrest _
        case h_2 statb hstat =>
          rw [if_neg (by rw [Option.isNone_iff_eq_none.1 hnone]; exact Bool.false_ne_true)]
          split
          case isTrue hexec =>
            rw [Bool.not_eq_true'] at hexec
            rw [findIdx_cons_miss (by simp [hit, hstat, hexec])]
            exact hrest _
          case isFalse hexec =>
            rw [Bool.not_eq_true', Bool.not_eq_false] at hexec
            rw [findIdx_cons_hit (by simp [hit, hstat, hexec, hnone])]
            exact ⟨rfl, by simp, by simp⟩

/-! ### The table -/

/-- What an entry says was right at some directory, and still is unless it is to be
rehashed. -/
structure EntryOk (files : Files Dir) (path : Text) (cwd : Dir) (name : Text)
    (e : TblEntry Func) : Prop where
  normal : ∀ {idx}, e.param = .normal idx →
    findBuiltin name = none ∧ ∃ cwd', firstHit files cwd' path name = some idx
  current : ∀ {idx}, e.param = .normal idx → e.rehash = false →
    firstHit files cwd path name = some idx
  builtin : ∀ {bcmd}, e.param = .builtin bcmd → findBuiltin name = some bcmd
  function : ∀ {func}, e.param = .function func → e.rehash = false

def TableOk (files : Files Dir) (path : Text) (cwd : Dir) (table : CmdTable Func) : Prop :=
  ∀ name e, table.find name = some e → EntryOk files path cwd name e

theorem entryOk_builtin {files : Files Dir} {path : Text} {cwd : Dir} {name : Text} {bcmd : Builtin}
    (h : findBuiltin name = some bcmd) :
    EntryOk files path cwd name (⟨.builtin bcmd, false⟩ : TblEntry Func) := by
  constructor
  · intro idx hparam
    cases hparam
  · intro idx hparam
    cases hparam
  · intro b hparam
    obtain rfl := CmdParam.builtin.inj hparam
    exact h
  · intro func hparam
    cases hparam

theorem entryOk_normal {files : Files Dir} {path : Text} {cwd : Dir} {name : Text} {idx : ℕ}
    (hb : findBuiltin name = none) (h : firstHit files cwd path name = some idx) :
    EntryOk files path cwd name (⟨.normal idx, false⟩ : TblEntry Func) := by
  constructor
  · intro i hparam
    obtain rfl := CmdParam.normal.inj hparam
    exact ⟨hb, cwd, h⟩
  · intro i hparam _
    obtain rfl := CmdParam.normal.inj hparam
    exact h
  · intro b hparam
    cases hparam
  · intro func hparam
    cases hparam

theorem entryOk_function {files : Files Dir} {path : Text} {cwd : Dir} {name : Text} {func : Func} :
    EntryOk files path cwd name (⟨.function func, false⟩ : TblEntry Func) := by
  constructor
  · intro i hparam
    cases hparam
  · intro i hparam
    cases hparam
  · intro b hparam
    cases hparam
  · intro f _
    rfl

section
variable {files : Files Dir} {path : Text} {cwd : Dir} {table : CmdTable Func} {name : Text}
  {e : TblEntry Func}

theorem TableOk.put (h : TableOk files path cwd table) (he : EntryOk files path cwd name e) :
    TableOk files path cwd (table.put name e) := by
  intro n e' hfind
  rw [HashTable.find_put] at hfind
  split at hfind
  case isTrue hn =>
    obtain rfl := Option.some.inj hfind
    rwa [hn]
  case isFalse => exact h n e' hfind

theorem TableOk.erase (h : TableOk files path cwd table) :
    TableOk files path cwd (table.erase name) := by
  intro n e' hfind
  rw [HashTable.find_erase] at hfind
  split at hfind
  · cases hfind
  · exact h n e' hfind

end

/-! ### `find_command` -/

section
variable {w : World Dir Func} {cwd : Dir} {path name : Text} {loc : Option ℕ} {act : Act}
  {updatetbl : Bool} {cmdp : Option (TblEntry Func)} {table : CmdTable Func}

/-- What a lookup does to the table: nothing, or it replaces the entry of the name by a right
one, or removes it. -/
inductive TableStep (files : Files Dir) (path : Text) (cwd : Dir) (name : Text)
    (table : CmdTable Func) : CmdTable Func → Prop
  | same : TableStep files path cwd name table table
  | put {e : TblEntry Func} : EntryOk files path cwd name e →
      TableStep files path cwd name table (table.put name e)
  | erase : TableStep files path cwd name table (table.erase name)

theorem TableOk.step {files : Files Dir} {table' : CmdTable Func} (h : TableOk files path cwd table)
    (hstep : TableStep files path cwd name table table') : TableOk files path cwd table' := by
  cases hstep with
  | same => exact h
  | put he => exact h.put he
  | erase => exact h.erase

/-- `find_command` finds what is there, and leaves the table alone unless it may update it. -/
structure FindOk (w : World Dir Func) (cwd : Dir) (path name : Text) (answer : CmdEntry Func)
    (updatetbl : Bool) (table : CmdTable Func) (found : Found Func) : Prop where
  entry : found.entry = .ok answer
  step : TableStep w.files path cwd name table found.table
  kept : updatetbl = false → found.table = table

theorem findAfresh_ok (hpath : NoFunc path)
    (hcmdp : ∀ e, cmdp = some e → EntryOk w.files path cwd name e ∧ e.rehash = true ∧
      ∀ idx, e.param = .normal idx → updatetbl = true) :
    FindOk w cwd path name (freshEntry w cwd path name act) updatetbl table
      (findAfresh w cwd path loc name act updatetbl cmdp table) := by
  unfold findAfresh freshEntry
  cases hb : findBuiltin name with
  | some bcmd =>
    dsimp only
    cases updatetbl with
    | true => exact ⟨rfl, .put (entryOk_builtin hb), by simp⟩
    | false => exact ⟨rfl, .same, fun _ => rfl⟩
  | none =>
    dsimp only
    cases hreg : act.regbltin with
    | true => exact ⟨rfl, .same, fun _ => rfl⟩
    | false =>
      rw [if_neg Bool.false_ne_true, if_neg Bool.false_ne_true]
      -- only an entry for a program can be rehashed here
      have hnormal : ∀ e, cmdp = some e → ∃ idx, e.param = .normal idx ∧ updatetbl = true ∧
          ∃ cwd', firstHit w.files cwd' path name = some idx := by
        intro e he
        obtain ⟨hok, hre, hupd⟩ := hcmdp e he
        cases hparam : e.param with
        | normal idx => exact ⟨idx, rfl, hupd idx hparam, (hok.normal hparam).2⟩
        | function func =>
          rw [hok.function hparam] at hre
          cases hre
        | builtin bcmd =>
          rw [hok.builtin hparam] at hb
          cases hb
      generalize hprev : cmdp.bind _ = prev
      have hprev_eq : ∀ p, prev = some p →
          ∃ e, cmdp = some e ∧ e.param = .normal p ∧ updatetbl = true ∧
            ∃ cwd', firstHit w.files cwd' path name = some p := by
        intro p hp
        cases cmdp with
        | none =>
          rw [hp] at hprev
          cases hprev
        | some e =>
          obtain ⟨idx, hparam, hupd, hcwd⟩ := hnormal e rfl
          rw [Option.bind_some, hparam, hp] at hprev
          obtain rfl := Option.some.inj hprev
          exact ⟨e, rfl, hparam, hupd, hcwd⟩
      have hprevOk : PrevOk w.files prev 0 (expansions name 1 path) := by
        intro p hp _
        obtain ⟨-, -, -, -, cwd', hcwd⟩ := hprev_eq p hp
        exact ⟨cwd', p, hcwd, (Nat.zero_add p).symm⟩
      have hsearch := searchPath_index cwd act.nofunc .enoent (hpath name) hprevOk
      have hzero : ((expansions name 1 path).findIdx? (hit w.files cwd)).map (0 + ·) =
          firstHit w.files cwd path name := by
        simp [firstHit]
      rw [hzero] at hsearch
      cases hs : searchPath w.files cwd act.nofunc prev 0 .enoent (expansions name 1 path) with
      | unchanged =>
        rw [hs] at hsearch
        obtain ⟨p, hp⟩ := Option.isSome_iff_exists.1 (hsearch.unchanged rfl)
        obtain ⟨⟨param, rehash⟩, rfl, hparam, hupd, -⟩ := hprev_eq p hp
        obtain rfl : param = .normal p := hparam
        have hfirst : firstHit w.files cwd path name = some p := hsearch.index.symm.trans hp
        rw [hfirst]
        exact ⟨rfl, .put (entryOk_normal hb hfirst), fun h => by simp [hupd] at h⟩
      | found idx =>
        rw [hs] at hsearch
        have hfirst : firstHit w.files cwd path name = some idx := hsearch.index.symm
        rw [hfirst]
        cases updatetbl with
        | true => exact ⟨rfl, .put (entryOk_normal hb hfirst), by simp⟩
        | false => exact ⟨rfl, .same, fun _ => rfl⟩
      | funcfile fullname => exact absurd hs (hsearch.funcfile fullname)
      | failed e =>
        rw [hs] at hsearch
        have hfirst : firstHit w.files cwd path name = none := hsearch.index.symm
        rw [hfirst]
        dsimp only
        split
        · exact ⟨rfl, .same, fun _ => rfl⟩
        · refine ⟨rfl, ?_, ?_⟩
          · dsimp only
            split
            · exact .erase
            · exact .same
          · intro hupd
            simp [hupd]

/-- The answer with a table: only functions, and builtins that are not regular ones, make a
difference. -/
def answer (w : World Dir Func) (cwd : Dir) (path name : Text) (act : Act)
    (table : CmdTable Func) : CmdEntry Func :=
  if '/' ∈ name then findSlash w.files cwd name act
  else match table.find name with
    | some ⟨.function func, _⟩ =>
      if act.nofunc then freshEntry w cwd path name act else .function func
    | some ⟨.builtin bcmd, _⟩ =>
      if !bcmd.regular && act.regbltin then .unknown else freshEntry w cwd path name act
    | some ⟨.normal _, _⟩ | none => freshEntry w cwd path name act

variable {pathval : Text} {p : CmdPath}

theorem findCommand_ok (hok : TableOk w.files pathval cwd table) (hpath : NoFunc (p.text pathval)) :
    (findCommand w cwd pathval loc name act p table).entry =
        .ok (answer w cwd (p.text pathval) name act table) ∧
      TableOk w.files pathval cwd (findCommand w cwd pathval loc name act p table).table := by
  unfold findCommand answer
  split
  case isTrue => exact ⟨rfl, hok⟩
  case isFalse =>
    generalize hact : (if p = .pathval then act else { act with altpath := true }) = act'
    have hreg : act'.regbltin = act.regbltin := by
      rw [← hact]
      split <;> rfl
    have hnofunc : act'.nofunc = act.nofunc := by
      rw [← hact]
      split <;> rfl
    have hfresh : freshEntry w cwd (p.text pathval) name act' =
        freshEntry w cwd (p.text pathval) name act := by
      unfold freshEntry
      rw [hreg]
    -- where the table may be updated, it is for this path
    have hdone {updatetbl : Bool} {cmdp : Option (TblEntry Func)}
        (hupd : updatetbl = true → p = .pathval)
        (hcmdp : ∀ e, cmdp = some e → EntryOk w.files (p.text pathval) cwd name e ∧
          e.rehash = true ∧ ∀ idx, e.param = .normal idx → updatetbl = true) :
        (findAfresh w cwd (p.text pathval) loc name act' updatetbl cmdp table).entry =
            .ok (freshEntry w cwd (p.text pathval) name act) ∧
          TableOk w.files pathval cwd
            (findAfresh w cwd (p.text pathval) loc name act' updatetbl cmdp table).table := by
      have h := @findAfresh_ok _ _ w cwd (p.text pathval) name loc act' updatetbl cmdp table
        hpath hcmdp
      refine ⟨h.entry.trans (congrArg Except.ok hfresh), ?_⟩
      cases updatetbl with
      | false =>
        rw [h.kept rfl]
        exact hok
      | true =>
        have hp := hupd rfl
        subst hp
        exact hok.step h.step
    have hnone {updatetbl : Bool} (hupd : updatetbl = true → p = .pathval) :=
      @hdone updatetbl none hupd fun e he => by cases he
    dsimp only
    rw [hact]
    cases hfind : table.find name with
    | none => exact hnone of_decide_eq_true
    | some cmdp =>
      have he := hok name cmdp hfind
      obtain ⟨param, rehash⟩ := cmdp
      cases param with
      | function func =>
        obtain rfl : rehash = false := he.function rfl
        simp only [CmdParam.notRegular, CmdParam.passedOver, Bool.false_eq_true, if_false, hnofunc,
          Bool.not_false, if_true]
        split
        · exact hnone (by simp)
        · exact ⟨rfl, hok⟩
      | builtin bcmd =>
        have hb := he.builtin rfl
        have hentry : freshEntry w cwd (p.text pathval) name act = .builtin bcmd := by
          unfold freshEntry
          rw [hb]
        simp only [CmdParam.notRegular, CmdParam.passedOver, Bool.false_eq_true, if_false, hreg]
        split
        · exact ⟨rfl, hok⟩
        · split
          · rw [hentry]
            exact ⟨rfl, hok⟩
          case isFalse hre =>
            refine hdone of_decide_eq_true ?_
            intro e he'
            obtain rfl := Option.some.inj he'
            refine ⟨?_, by simpa using hre, ?_⟩
            · constructor
              · intro idx hparam
                cases hparam
              · intro idx hparam
                cases hparam
              · exact he.builtin
              · exact he.function
            · intro idx hparam
              cases hparam
      | normal idx =>
        obtain ⟨hb, -⟩ := he.normal rfl
        simp only [CmdParam.notRegular, CmdParam.passedOver, hreg]
        split
        case isTrue hreg' =>
          have hentry : freshEntry w cwd (p.text pathval) name act = .unknown := by
            simp [freshEntry, hb, hreg']
          rw [hentry]
          exact ⟨rfl, hok⟩
        case isFalse hreg' =>
          split
          · exact hnone (by simp)
          case isFalse halt =>
            -- an answer for `PATH` is used for `PATH` only
            have hp : p = .pathval := by
              by_contra hne
              rw [← hact] at halt
              simp [hne] at halt
            subst hp
            split
            case isTrue hre =>
              have hfirst := he.current rfl (by simpa using hre)
              have hentry : freshEntry w cwd (CmdPath.text pathval .pathval) name act =
                  .normal (some idx) := by
                unfold freshEntry
                rw [hb]
                dsimp only
                rw [if_neg hreg', CmdPath.text, hfirst]
              rw [hentry]
              exact ⟨rfl, hok⟩
            case isFalse hre =>
              refine hdone of_decide_eq_true ?_
              intro e he'
              obtain rfl := Option.some.inj he'
              exact ⟨he, by simpa using hre, fun _ _ => by simp⟩

end
end Bootsh
