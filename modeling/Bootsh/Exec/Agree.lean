import Bootsh.Exec.Execute
import Bootsh.Exec.Transparent

/-!
When the program that `shellexec` starts is the one that `find_command` found, and the one that
`describe_command` tells of.
-/
namespace Bootsh

variable {Dir Func : Type} {w : World Dir Func} {files : Files Dir} {cwd : Dir}
  {path name : Text} {st : Shell Dir Func}

/-! ### The table in all runs -/

section
variable {table : CmdTable Func}

theorem TableWf.put_builtin {bcmd : Builtin} (h : TableWf table)
    (hb : findBuiltin name = some bcmd) : TableWf (table.put name ⟨.builtin bcmd, false⟩) := by
  constructor
  · intro n b rehash hfind
    rw [HashTable.find_put] at hfind
    split at hfind
    case isTrue hn =>
      obtain ⟨⟨rfl⟩, -⟩ := TblEntry.mk.inj (Option.some.inj hfind)
      rwa [hn]
    case isFalse => exact h.builtin hfind
  · intro n func rehash hfind
    rw [HashTable.find_put] at hfind
    split at hfind
    · simp at hfind
    · exact h.function hfind

/-- An entry for a program may have any mark. -/
theorem TableWf.put_normal {idx : ℕ} {rehash : Bool} (h : TableWf table) :
    TableWf (table.put name ⟨.normal idx, rehash⟩) := by
  constructor
  · intro n b re hfind
    rw [HashTable.find_put] at hfind
    split at hfind
    · simp at hfind
    · exact h.builtin hfind
  · intro n func re hfind
    rw [HashTable.find_put] at hfind
    split at hfind
    · simp at hfind
    · exact h.function hfind

theorem TableWf.put_function {func : Func} (h : TableWf table) :
    TableWf (table.put name ⟨.function func, false⟩) := by
  constructor
  · intro n b rehash hfind
    rw [HashTable.find_put] at hfind
    split at hfind
    · simp at hfind
    · exact h.builtin hfind
  · intro n f rehash hfind
    rw [HashTable.find_put] at hfind
    split at hfind
    · exact (TblEntry.mk.inj (Option.some.inj hfind)).2.symm
    · exact h.function hfind

theorem TableWf.erase (h : TableWf table) : TableWf (table.erase name) := by
  constructor
  · intro n b rehash hfind
    rw [HashTable.find_erase] at hfind
    split at hfind
    · cases hfind
    · exact h.builtin hfind
  · intro n func rehash hfind
    rw [HashTable.find_erase] at hfind
    split at hfind
    · cases hfind
    · exact h.function hfind

theorem TableWf.hashcd {loc : Option ℕ} (h : TableWf table) : TableWf (hashcd loc table) := by
  constructor
  · intro n b rehash hfind
    rw [Bootsh.hashcd, HashTable.find_update, Option.bind_eq_some_iff] at hfind
    obtain ⟨⟨param, re⟩, hfind, heq⟩ := hfind
    obtain ⟨rfl, -⟩ := TblEntry.mk.inj (Option.some.inj heq)
    exact h.builtin hfind
  · intro n func rehash hfind
    rw [Bootsh.hashcd, HashTable.find_update, Option.bind_eq_some_iff] at hfind
    obtain ⟨⟨param, re⟩, hfind, heq⟩ := hfind
    obtain ⟨rfl, rfl⟩ := TblEntry.mk.inj (Option.some.inj heq)
    rw [h.function hfind]
    rfl

theorem Cleared.wf {table' : CmdTable Func} (hclear : Cleared table table') (h : TableWf table) :
    TableWf table' := by
  constructor
  · intro n b rehash hfind
    exact h.builtin (hclear n _ hfind).1
  · intro n func rehash hfind
    exact h.function (hclear n _ hfind).1

/-- What a search puts into the table is well formed. -/
theorem findAfresh_wf {loc : Option ℕ} {act : Act} {updatetbl : Bool}
    {cmdp : Option (TblEntry Func)} (h : TableWf table)
    (hcmdp : ∀ e, cmdp = some e → table.find name = some e) :
    TableWf (findAfresh w cwd path loc name act updatetbl cmdp table).table := by
  unfold findAfresh
  split
  case h_1 bcmd hb =>
    dsimp only
    split
    · exact h.put_builtin hb
    · exact h
  case h_2 hb =>
    split
    case isTrue => exact h
    case isFalse =>
      dsimp only
      split
      case h_1 e hs =>
        obtain ⟨param, rehash⟩ := e
        cases param with
        | normal idx => exact h.put_normal
        | function func => exact h.put_function
        | builtin bcmd => exact h.put_builtin (h.builtin (hcmdp _ rfl))
      case h_2 => exact h
      case h_3 idx hs =>
        dsimp only
        split
        · exact h.put_normal
        · exact h
      case h_4 fullname hs =>
        have hread := @w.readcmdfile_wf fullname _ h
        split
        · exact hread.put_function
        · exact hread
      case h_5 e hs =>
        split
        case isTrue => exact h
        case isFalse =>
          dsimp only
          split
          · exact h.erase
          · exact h

theorem findCommand_wf {pathval : Text} {loc : Option ℕ} {act : Act} {p : CmdPath}
    (h : TableWf table) : TableWf (findCommand w cwd pathval loc name act p table).table := by
  unfold findCommand
  split
  case isTrue => exact h
  case isFalse =>
    dsimp only
    generalize (if p = .pathval then act else { act with altpath := true }) = act
    split
    case h_1 => exact findAfresh_wf h (by simp)
    case h_2 e hfind =>
      split
      case isTrue => exact h
      case isFalse =>
        split
        case isTrue => exact findAfresh_wf h (by simp)
        case isFalse =>
          split
          case isTrue => exact h
          case isFalse =>
            apply findAfresh_wf h
            intro e' he'
            obtain rfl := Option.some.inj he'
            exact hfind

end

theorem callHooks_wf (calls : List (VarFunc × Text)) (h : TableWf st.cmdtable) :
    TableWf (calls.foldr Shell.callHook st).cmdtable := by
  have hrun := callHooks_run calls st
  cases hany : calls.any fun c => c.1 = .changepath with
  | true => exact (hrun.cleared hany).wf h
  | false =>
    rw [hrun.same hany]
    exact h

theorem varOp_wf (op : VarOp) (h : TableWf st.cmdtable) : TableWf (st.varOp op).2.cmdtable :=
  callHooks_wf _ h

theorem hashName_wf (h : TableWf st.cmdtable) : TableWf (st.hashName w name).cmdtable := by
  unfold Shell.hashName
  split
  · split
    · exact findCommand_wf h.erase
    · exact findCommand_wf h
  · exact findCommand_wf h

theorem cmdStep_wf (op : CmdOp Func) (h : TableWf st.cmdtable) :
    TableWf (st.cmdStep w op).2.cmdtable := by
  cases op with
  | var op => exact varOp_wf op h
  | cd args =>
    apply @cdcmd_keeps _ _ w.files st fun st => TableWf st.cmdtable
    · exact fun _ op _ h => varOp_wf op h
    · exact fun _ _ h => h
    · exact fun _ _ h => h
    · exact fun _ h => h.hashcd
    · exact h
  | defun name func => exact h.put_function
  | unsetfunc name =>
    change TableWf (unsetfunc name st.cmdtable)
    unfold unsetfunc
    split
    · exact h.erase
    · exact h
  | hashClear => exact (clearcmdentry_cleared _ _).wf h
  | hash name => exact hashName_wf h
  | lookup name act path => exact findCommand_wf h

/-! ### Searches that pass over functions -/

/-- The entry is a `%func` directory with a file for the command. -/
def FuncFile (files : Files Dir) (cwd : Dir) (a : Expansion) : Prop :=
  a.pathopt.isSome ∧ a.pathopt.bind List.head? ≠ some 'b' ∧
    ∃ statb, files.stat cwd a.fullname = .ok statb

/-- The number of entries that a search passes. -/
def Search.passed (i len : ℕ) : Search → ℕ
  | .found j => j - i
  | .unchanged | .funcfile _ | .failed _ => len

/-- The searches end at the same program, or both fail. -/
def Search.Like : Search → Search → Prop
  | .found i, .found j => i = j
  | .failed _, .failed _ => True
  | _, _ => False

theorem searchPath_le {nofunc : Bool} {i j : ℕ} {e : Errno} {l : List Expansion}
    (h : searchPath files cwd nofunc none i e l = .found j) : i ≤ j := by
  induction l generalizing i e with
  | nil => simp [searchPath] at h
  | cons a l ih =>
    rw [searchPath] at h
    split at h
    · have := ih h
      omega
    · rw [if_neg (by simp)] at h
      split at h
      · have := ih h
        omega
      · split at h
        · cases h
        · split at h
          · have := ih h
            omega
          · obtain rfl := Search.found.inj h
            rfl

theorem Search.passed_succ {i len : ℕ} {s : Search} (h : ∀ j, s = .found j → i + 1 ≤ j) :
    s.passed i (len + 1) = s.passed (i + 1) len + 1 := by
  cases s with
  | found j =>
    have := h j rfl
    change j - i = j - (i + 1) + 1
    omega
  | unchanged | funcfile _ | failed _ => rfl

/-- A search `s` that passes over functions, and a search `s'` of the same path for functions
too: they end alike, unless a file of functions stands before. -/
def FuncSearch (files : Files Dir) (cwd : Dir) (i : ℕ) (l : List Expansion) (s s' : Search) :
    Prop :=
  (∀ a ∈ l.take (s.passed i l.length), ¬ FuncFile files cwd a) ∧ s.Like s' ∨
    (∃ a ∈ l.take (s.passed i l.length), FuncFile files cwd a) ∧ ∃ fullname, s' = .funcfile fullname

theorem FuncSearch.cons {i : ℕ} {a : Expansion} {l : List Expansion} {s s' : Search}
    (h : FuncSearch files cwd (i + 1) l s s') (ha : ¬ FuncFile files cwd a)
    (hle : ∀ j, s = .found j → i + 1 ≤ j) : FuncSearch files cwd i (a :: l) s s' := by
  unfold FuncSearch
  rw [List.length_cons, Search.passed_succ hle, List.take_succ_cons]
  rcases h with ⟨hno, hlike⟩ | ⟨⟨b, hb, hfile⟩, hend⟩
  · left
    refine ⟨?_, hlike⟩
    intro b hb
    rcases List.mem_cons.1 hb with rfl | hb
    · exact ha
    · exact hno b hb
  · right
    exact ⟨⟨b, List.mem_cons_of_mem _ hb, hfile⟩, hend⟩

theorem searchPath_func (i : ℕ) (e e' : Errno) (l : List Expansion) :
    FuncSearch files cwd i l (searchPath files cwd true none i e l)
      (searchPath files cwd false none i e' l) := by
  induction l generalizing i e e' with
  | nil => exact .inl ⟨by simp, trivial⟩
  | cons a l ih =>
    have hcons := fun e e' (ha : ¬ FuncFile files cwd a) =>
      (ih (i + 1) e e').cons ha fun j => searchPath_le
    rw [searchPath, searchPath, Bool.or_true, Bool.and_true, Bool.or_false]
    rw [if_neg (by simp : ¬ (a.fullname.head? = some '/' ∧ (none : Option ℕ).any _ = true)),
      if_neg (by simp : ¬ (a.fullname.head? = some '/' ∧ (none : Option ℕ).any _ = true))]
    cases hopt : a.pathopt with
    | none =>
      have ha : ¬ FuncFile files cwd a := by
        rintro ⟨hsome, -⟩
        rw [hopt] at hsome
        cases hsome
      simp only [Option.isSome_none, Bool.false_eq_true, Bool.false_and, if_false]
      split
      case h_1 => exact hcons _ _ ha
      case h_2 =>
        split
        · exact hcons _ _ ha
        · exact .inl ⟨by simp [Search.passed], rfl⟩
    | some opt =>
      simp only [Option.isSome_some, Bool.true_and, if_true]
      split
      case isTrue hb =>
        apply hcons
        rintro ⟨-, hne, -⟩
        rw [hopt] at hne
        exact hne (beq_iff_eq.1 hb)
      case isFalse hb =>
        split
        case h_1 errno hstat =>
          apply hcons
          rintro ⟨-, -, statb, hok⟩
          rw [hstat] at hok
          cases hok
        case h_2 statb hstat =>
          right
          refine ⟨⟨a, ?_, by simp [hopt], ?_, statb, hstat⟩, _, rfl⟩
          · rw [List.length_cons, Search.passed_succ fun j => searchPath_le]
            exact List.mem_cons_self
          · rw [hopt]
            exact fun heq => hb (beq_iff_eq.2 heq)

/-! ### The answers that are programs -/

/-- What a search has to end with for an answer to be a program. -/
def Search.Gives (w : World Dir Func) (name : Text) (idx : Option ℕ) : Search → Prop
  | .found j => idx = some j
  | .failed _ => idx = none ∧ w.inProcess name
  | .unchanged | .funcfile _ => False

theorem Search.Like.gives {s s' : Search} {idx : Option ℕ} (hlike : s.Like s')
    (h : s.Gives w name idx) : s'.Gives w name idx := by
  cases s with
  | found j =>
    cases s' with
    | found k =>
      obtain rfl : j = k := hlike
      exact h
    | unchanged | funcfile _ | failed _ => exact hlike.elim
  | failed e =>
    cases s' with
    | failed e' => exact h
    | unchanged | funcfile _ | found _ => exact hlike.elim
  | unchanged | funcfile _ => exact h.elim

theorem Search.Gives.passed {s : Search} {idx : Option ℕ} {len : ℕ} (h : s.Gives w name idx) :
    s.passed 0 len = idx.getD len := by
  cases s with
  | found j =>
    obtain rfl : idx = some j := h
    rfl
  | failed e =>
    obtain ⟨rfl, -⟩ := h
    rfl
  | unchanged | funcfile _ => exact h.elim

section
variable {loc idx : Option ℕ} {act : Act} {updatetbl nofunc : Bool} {table : CmdTable Func}

theorem findAfresh_normal (hreg : act.regbltin = false) :
    (findAfresh w cwd path loc name act updatetbl none table).entry = .ok (.normal idx) ↔
      findBuiltin name = none ∧
        (searchPath w.files cwd act.nofunc none 0 .enoent (expansions name 1 path)).Gives w name
          idx := by
  unfold findAfresh
  cases hb : findBuiltin name with
  | some bcmd => simp
  | none =>
    simp only [hreg, Bool.false_eq_true, if_false, Option.bind_none, true_and]
    cases searchPath w.files cwd act.nofunc none 0 .enoent (expansions name 1 path) with
    | unchanged => simp [Search.Gives]
    | found j => simp [Search.Gives, eq_comm]
    | funcfile fullname =>
      dsimp only
      split <;> simp [Search.Gives]
    | failed e =>
      dsimp only
      split
      case isTrue hin => simp [Search.Gives, hin, eq_comm]
      case isFalse hin => simp [Search.Gives, hin]

/-- No file of functions stands before the program at `idx`. -/
def NoFuncFile (files : Files Dir) (cwd : Dir) (path name : Text) (idx : Option ℕ) : Prop :=
  ∀ a ∈ (expansions name 1 path).take (idx.getD (expansions name 1 path).length),
    ¬ FuncFile files cwd a

/-- The program at `idx` is found if `P` holds, and else none is. -/
def FindsIf (P : Prop) (idx : Option ℕ) (found : Found Func) : Prop :=
  P ∧ found.entry = .ok (.normal idx) ∨ ¬ P ∧ ∀ idx', found.entry ≠ .ok (.normal idx')

theorem FindsIf.congr {P Q : Prop} {found : Found Func} (h : FindsIf P idx found) (hPQ : P ↔ Q) :
    FindsIf Q idx found := by
  unfold FindsIf
  rwa [← hPQ]

/-- A search that does not pass over functions finds the same program, or none. -/
theorem findAfresh_func {act' : Act} {updatetbl' : Bool} {table' : CmdTable Func}
    (hact : act.regbltin = false) (hact' : act'.regbltin = false) (hnofunc : act'.nofunc = false)
    (h : (findAfresh w cwd path loc name act updatetbl none table).entry = .ok (.normal idx)) :
    FindsIf (act.nofunc = true → NoFuncFile w.files cwd path name idx) idx
      (findAfresh w cwd path loc name act' updatetbl' none table') := by
  obtain ⟨hb, hgives⟩ := (findAfresh_normal hact).1 h
  cases hn : act.nofunc with
  | false =>
    left
    refine ⟨by simp, (findAfresh_normal hact').2 ⟨hb, ?_⟩⟩
    rwa [hnofunc, ← hn]
  | true =>
    rw [hn] at hgives
    have hsearch := @searchPath_func _ w.files cwd 0 .enoent .enoent (expansions name 1 path)
    unfold FuncSearch at hsearch
    rw [hgives.passed] at hsearch
    rcases hsearch with ⟨hno, hlike⟩ | ⟨⟨a, ha, hfile⟩, fullname, hend⟩
    · left
      refine ⟨fun _ => hno, (findAfresh_normal hact').2 ⟨hb, ?_⟩⟩
      rw [hnofunc]
      exact hlike.gives hgives
    · right
      refine ⟨fun hno => hno rfl a ha hfile, ?_⟩
      intro idx' heq
      rw [findAfresh_normal hact', hnofunc, hend] at heq
      exact heq.2.elim

/-- The command is hashed as a function. -/
def HashedFunction (table : CmdTable Func) (name : Text) : Prop :=
  ∃ func rehash, table.find name = some ⟨.function func, rehash⟩

/-- `find_command` as `describe_command` calls it, where the answer is not read from the table,
against a call that found a program. -/
theorem findCommand_describe {pathval : Text} {p : CmdPath} (hwf : TableWf table)
    (hslash : '/' ∉ name) (hnot : p = .pathval → table.find name = none)
    (h : (findCommand w cwd pathval loc name { err := true, nofunc := nofunc } p table).entry =
      .ok (.normal idx)) :
    FindsIf (nofunc = true → ¬ HashedFunction table name ∧
        NoFuncFile w.files cwd (p.text pathval) name idx) idx
      (findCommand w cwd pathval loc name { abs := true } p table) := by
  unfold findCommand at h ⊢
  rw [if_neg hslash] at h ⊢
  dsimp only at h ⊢
  -- with no function in the table, both calls search the path
  have hnone : ∀ {e}, table.find name = e → (∀ func rehash, e ≠ some ⟨.function func, rehash⟩) →
      ((nofunc = true → NoFuncFile w.files cwd (p.text pathval) name idx) ↔
        (nofunc = true → ¬ HashedFunction table name ∧
          NoFuncFile w.files cwd (p.text pathval) name idx)) := by
    intro e hfind hne
    have hno : ¬ HashedFunction table name := by
      rintro ⟨func, rehash, hfunc⟩
      exact hne func rehash (hfind.symm.trans hfunc)
    simp [hno]
  cases p with
  | pathval =>
    rw [hnot rfl] at h ⊢
    exact (findAfresh_func rfl rfl rfl h).congr (hnone (hnot rfl) (by simp))
  | other text =>
    rw [if_neg (by simp)] at h ⊢
    cases hfind : table.find name with
    | none =>
      rw [hfind] at h
      exact (findAfresh_func rfl rfl rfl h).congr (hnone hfind (by simp))
    | some e =>
      obtain ⟨param, rehash⟩ := e
      rw [hfind] at h
      cases param with
      | normal j =>
        simp only [CmdParam.notRegular, CmdParam.passedOver, Bool.false_eq_true, if_false,
          if_true] at h ⊢
        exact (findAfresh_func rfl rfl rfl h).congr (hnone hfind (by simp))
      | function func =>
        obtain rfl := hwf.function hfind
        simp only [CmdParam.notRegular, CmdParam.passedOver, Bool.false_eq_true, if_false,
          Bool.not_false, if_true] at h ⊢
        cases nofunc with
        | false => simp [CmdParam.entry] at h
        | true =>
          right
          refine ⟨fun hno => (hno rfl).1 ⟨func, false, hfind⟩, ?_⟩
          simp [CmdParam.entry]
      | builtin bcmd =>
        have hb := hwf.builtin hfind
        cases rehash with
        | false => simp [CmdParam.notRegular, CmdParam.passedOver, CmdParam.entry] at h
        | true =>
          simp [CmdParam.notRegular, CmdParam.passedOver, findAfresh, hb] at h

end

/-! ### The program that is started -/

theorem execPath_started {i idx : ℕ} {e : Errno} {l : List Expansion} {prog : Program}
    (h : execPath files cwd idx i e l = .started prog) :
    ∃ k a, l[k]? = some a ∧ a.pathopt = none ∧ tryexec files cwd a.fullname = .started ∧
      idx ≤ i + k ∧ prog = .file a.fullname (some (i + k)) := by
  induction l generalizing i e with
  | nil => simp [execPath] at h
  | cons a l ih =>
    -- what is started from the rest of the path
    have hrest : ∀ {e}, execPath files cwd idx (i + 1) e l = .started prog →
        ∃ k b, (a :: l)[k]? = some b ∧ b.pathopt = none ∧
          tryexec files cwd b.fullname = .started ∧ idx ≤ i + k ∧
          prog = .file b.fullname (some (i + k)) := by
      intro e h
      obtain ⟨k, b, hb, hopt, htry, hle, hprog⟩ := ih h
      have hk : i + 1 + k = i + (k + 1) := by omega
      rw [hk] at hle hprog
      exact ⟨k + 1, b, hb, hopt, htry, hle, hprog⟩
    rw [execPath] at h
    split at h
    case isTrue hle =>
      split at h
      case h_1 htry =>
        obtain rfl := Execution.started.inj h
        exact ⟨0, a, rfl, hle.2, htry, hle.1, rfl⟩
      case h_2 => cases h
      case h_3 => exact hrest h
    case isFalse => exact hrest h

theorem execPath_at {i idx : ℕ} {e : Errno} {l : List Expansion} {a : Expansion}
    (hle : i ≤ idx) (ha : l[idx - i]? = some a) (hopt : a.pathopt = none)
    (htry : tryexec files cwd a.fullname = .started) :
    execPath files cwd idx i e l = .started (.file a.fullname (some idx)) := by
  induction l generalizing i e with
  | nil => simp at ha
  | cons b l ih =>
    rw [execPath]
    by_cases heq : i = idx
    · subst heq
      rw [Nat.sub_self] at ha
      obtain rfl := Option.some.inj ha
      rw [if_pos ⟨le_rfl, hopt⟩, htry]
    · rw [if_neg (by omega)]
      apply ih (by omega)
      have hsub : idx - i = (idx - (i + 1)) + 1 := by omega
      rwa [hsub] at ha

/-- The program that an answer of `find_command` stands for. -/
def resolved (path name : Text) : Option ℕ → Program
  | none => if '/' ∈ name then .file name none else .applet name
  | some i => .file (entryName path name i) (some i)

/-- A built-in program is run only for the index -1, and the entry at any other one starts. -/
def Executes (w : World Dir Func) (cwd : Dir) (path name : Text) : Option ℕ → Prop
  | none => '/' ∈ name ∨ w.runsInProcess name
  | some i => ¬ w.runsInProcess name ∧ ∃ a, (expansions name 1 path)[i]? = some a ∧
      a.pathopt = none ∧ tryexec w.files cwd a.fullname = .started

theorem runsInProcess_slash (hslash : '/' ∈ name) : w.runsInProcess name = false := by
  unfold World.runsInProcess
  have hfind : w.toyFind name = false := by
    rw [Bool.eq_false_iff]
    exact fun h => w.toyFind_slash h hslash
  have hmains : mains.contains name = false := by
    rw [Bool.eq_false_iff]
    intro h
    simp only [mains, List.contains_eq_mem, decide_eq_true_eq, List.mem_cons,
      List.not_mem_nil, or_false] at h
    rcases h with rfl | rfl | rfl | rfl | rfl | rfl <;> revert hslash <;> decide
  rw [hfind, hmains]
  rfl

theorem entryName_of_getElem {a : Expansion} {i : ℕ} (h : (expansions name 1 path)[i]? = some a) :
    entryName path name i = a.fullname := by
  simp [entryName, h]

/-- The program that is started is the resolved one. -/
theorem shellexec_resolved_iff {idx : Option ℕ} {prog : Program} (hidx : '/' ∈ name → idx = none)
    (h : shellexec w cwd name path idx = .started prog) :
    prog = resolved path name idx ↔ Executes w cwd path name idx := by
  unfold shellexec at h
  cases hin : w.runsInProcess name with
  | true =>
    rw [hin, if_pos rfl] at h
    obtain rfl := Execution.started.inj h
    have hslash : '/' ∉ name := by
      intro hslash
      rw [runsInProcess_slash hslash] at hin
      cases hin
    cases idx with
    | none => simp [resolved, Executes, hslash, hin]
    | some i => simp [resolved, Executes, hin]
  | false =>
    rw [hin, if_neg Bool.false_ne_true] at h
    split at h
    case isTrue hslash =>
      rw [hidx hslash]
      split at h
      case h_1 =>
        obtain rfl := Execution.started.inj h
        simp [resolved, Executes, hslash]
      all_goals cases h
    case isFalse hslash =>
      obtain ⟨k, a, ha, hopt, htry, -, rfl⟩ := execPath_started h
      rw [Nat.zero_add]
      cases idx with
      | none => simp [resolved, Executes, hslash, hin]
      | some i =>
        constructor
        · intro heq
          obtain ⟨-, hk⟩ := Program.file.inj heq
          obtain rfl := Option.some.inj hk
          exact ⟨by simp [hin], a, ha, hopt, htry⟩
        · rintro ⟨-, b, hb, hbopt, hbtry⟩
          rw [Option.getD_some, execPath_at (Nat.zero_le i) hb hbopt hbtry] at h
          rw [resolved, entryName_of_getElem hb]
          simpa using h.symm

/-! ### The program that is described -/

/-- What stands in the way of a description of the program that was found. -/
structure Describes (w : World Dir Func) (aliases : Text → Option Text) (nofunc : Bool)
    (name : Text) (path : Option Text) (idx : Option ℕ) (st : Shell Dir Func) : Prop where
  keyword : name ∉ parsekwd
  noAlias : aliases name = none
  /-- An entry of the table has the name of the program, whether it is to be rehashed or not. -/
  hashed : path = none → ∀ cmdp, st.cmdtable.find name = some cmdp →
    ∃ j, cmdp.param = .normal j ∧
      entryName st.pathval name j = (resolved st.pathval name idx).text
  slash : (path = none → st.cmdtable.find name = none) → '/' ∈ name →
    ∃ statb, w.files.stat st.cwd name = .ok statb ∧ testExec w.files st.cwd name statb
  func : (path = none → st.cmdtable.find name = none) → '/' ∉ name → nofunc = true →
    ¬ HashedFunction st.cmdtable name ∧
      NoFuncFile w.files st.cwd (path.getD st.pathval) name idx

theorem describeEntry_normal (tracked : Bool) (idx : Option ℕ) :
    describeEntry path name tracked (.normal idx : CmdEntry Func) =
      .program (resolved path name idx).text tracked := by
  cases idx with
  | none =>
    rw [describeEntry, resolved]
    split <;> rfl
  | some i => rfl

theorem describeEntry_program {tracked tracked' : Bool} {e : CmdEntry Func} {text : Text}
    (h : describeEntry path name tracked e = .program text tracked') : ∃ idx, e = .normal idx := by
  cases e with
  | normal idx => exact ⟨idx, rfl⟩
  | unknown | function func | builtin cmd => simp [describeEntry] at h

/-- The path that a command is searched in: that of `command -p`, or `PATH`. -/
def searched (path : Option Text) : CmdPath := (path.map .other).getD .pathval

theorem searched_text (path : Option Text) (pathval : Text) :
    (searched path).text pathval = path.getD pathval := by
  cases path <;> rfl

/-- The description where the command is not looked up in the table. -/
theorem describeAfresh_iff {nofunc : Bool} {path : Option Text} {idx : Option ℕ}
    (hwf : TableWf st.cmdtable) (hnot : path = none → st.cmdtable.find name = none)
    (h : (st.findCommand w name { err := true, nofunc := nofunc } (searched path)).entry =
      .ok (.normal idx)) :
    (∃ tracked, ((st.findCommand w name { abs := true } (searched path)).entry.map
        (describeEntry (path.getD st.pathval) name false)) =
          .ok (.program (resolved (path.getD st.pathval) name idx).text tracked)) ↔
      ('/' ∈ name → ∃ statb, w.files.stat st.cwd name = .ok statb ∧
          testExec w.files st.cwd name statb) ∧
        ('/' ∉ name → nofunc = true → ¬ HashedFunction st.cmdtable name ∧
          NoFuncFile w.files st.cwd (path.getD st.pathval) name idx) := by
  unfold Shell.findCommand at h ⊢
  by_cases hslash : '/' ∈ name
  · unfold findCommand at h ⊢
    rw [if_pos hslash] at h ⊢
    obtain rfl : none = idx := CmdEntry.normal.inj (Except.ok.inj h)
    simp only [hslash, not_true_eq_false, true_implies, false_implies, and_true]
    unfold findSlash
    simp only [if_true, Except.map]
    cases w.files.stat st.cwd name with
    | error e => simp [describeEntry]
    | ok statb =>
      dsimp only
      split
      case isTrue hexec => simp [describeEntry_normal, hexec]
      case isFalse hexec => simp [describeEntry, hexec]
  · simp only [hslash, false_implies, not_false_eq_true, true_implies, true_and]
    have hfinds := findCommand_describe hwf hslash (fun hp => hnot (by
      cases path with
      | none => rfl
      | some path => cases hp)) h
    rw [searched_text] at hfinds
    rcases hfinds with ⟨hP, hok⟩ | ⟨hP, hne⟩
    · rw [hok]
      exact ⟨fun _ => hP, fun _ => ⟨false, congrArg _ (describeEntry_normal false idx)⟩⟩
    · constructor
      · rintro ⟨tracked, heq⟩
        cases hentry : (findCommand w st.cwd st.pathval st.builtinloc name { abs := true }
            (searched path) st.cmdtable).entry with
        | error msg =>
          rw [hentry] at heq
          cases heq
        | ok e =>
          rw [hentry] at heq
          obtain ⟨i, rfl⟩ := describeEntry_program (Except.ok.inj heq)
          exact absurd hentry (hne i)
      · intro h
        exact absurd h hP

/-- The description is that of the program that was found. -/
theorem describeCommand_iff {aliases : Text → Option Text} {nofunc : Bool} {path : Option Text}
    {idx : Option ℕ} (hwf : TableWf st.cmdtable)
    (h : (st.findCommand w name { err := true, nofunc := nofunc } (searched path)).entry =
      .ok (.normal idx)) :
    (∃ tracked, (describeCommand w aliases name path st).1 =
        .ok (.program (resolved (path.getD st.pathval) name idx).text tracked)) ↔
      Describes w aliases nofunc name path idx st := by
  unfold describeCommand
  by_cases hkwd : name ∈ parsekwd
  · rw [if_pos (by simpa using hkwd)]
    constructor
    · rintro ⟨tracked, heq⟩
      cases heq
    · exact fun hd => absurd hkwd hd.keyword
  rw [if_neg (by simpa using hkwd)]
  cases halias : aliases name with
  | some val =>
    dsimp only
    constructor
    · rintro ⟨tracked, heq⟩
      cases heq
    · intro hd
      have := halias.symm.trans hd.noAlias
      cases this
  | none =>
    dsimp only
    cases hcmdp : (if path.isNone then st.cmdtable.find name else none) with
    | some cmdp =>
      obtain rfl : path = none := by
        cases path with
        | none => rfl
        | some path => cases hcmdp
      have hfind : st.cmdtable.find name = some cmdp := hcmdp
      dsimp only
      constructor
      · rintro ⟨tracked, heq⟩
        have heq := Except.ok.inj heq
        refine ⟨hkwd, halias, ?_, ?_, ?_⟩
        · rintro - e he
          obtain rfl := Option.some.inj (hfind.symm.trans he)
          obtain ⟨i, hi⟩ := describeEntry_program heq
          cases hparam : cmdp.param with
          | normal j =>
            refine ⟨j, rfl, ?_⟩
            rw [hparam, CmdParam.entry, describeEntry_normal] at heq
            exact (Description.program.inj heq).1
          | function func => simp [hparam, CmdParam.entry] at hi
          | builtin bcmd => simp [hparam, CmdParam.entry] at hi
        all_goals
          intro hnone
          have := hfind.symm.trans (hnone rfl)
          cases this
      · intro hd
        obtain ⟨j, hparam, htext⟩ := hd.hashed rfl cmdp hfind
        refine ⟨true, ?_⟩
        rw [hparam, CmdParam.entry, describeEntry_normal, Option.getD_none, ← htext]
        rfl
    | none =>
      have hnot : path = none → st.cmdtable.find name = none := by
        rintro rfl
        exact hcmdp
      have hafresh := describeAfresh_iff hwf hnot h
      constructor
      · intro hdesc
        obtain ⟨hs, hf⟩ := hafresh.1 hdesc
        refine ⟨hkwd, halias, ?_, fun _ => hs, fun _ => hf⟩
        intro hpath cmdp hfind
        have := hfind.symm.trans (hnot hpath)
        cases this
      · intro hd
        exact hafresh.2 ⟨hd.slash hnot, hd.func hnot⟩

/-! ### Runs -/

/-- The world may be another one at every step. -/
def Shell.worldStep (st : Shell Dir Func) (x : World Dir Func × CmdOp Func) :
    Unit × Shell Dir Func := st.cmdStep x.1 x.2

/-- The program is the one that `find_command` found, and the one that `describe_command`
tells of. -/
def Agrees (w : World Dir Func) (aliases : Text → Option Text) (name : Text) (path : Option Text)
    (idx : Option ℕ) (prog : Program) (st : Shell Dir Func) : Prop :=
  prog = resolved (path.getD st.pathval) name idx ∧
    ∃ tracked, (describeCommand w aliases name path st).1 = .ok (.program prog.text tracked)

theorem run_wf (root : Bool) (environ : List Text) (ppid : Text) (samedir : AbsPath → Bool)
    (ops : List (World Dir Func × CmdOp Func)) :
    TableWf (Run.run Shell.worldStep (initShell files root environ ppid cwd samedir)
      ops).2.cmdtable := by
  apply @Run.run_preserves _ _ _ _ fun st : Shell Dir Func => TableWf st.cmdtable
  · exact fun st x h => cmdStep_wf x.2 h
  · constructor
    · intro n b rehash hfind
      rw [initShell_noEntry] at hfind
      cases hfind
    · intro n func rehash hfind
      rw [initShell_noEntry] at hfind
      cases hfind

/-- In every state that a run reaches, the program that is started agrees with the answer of
`find_command` and with the description if and only if built-in programs are run for the
index -1 only, the entry at any other index starts, and nothing else stands in the table or
before the program for the description to tell of. -/
theorem shellexec_agrees_iff (files : Files Dir) (root : Bool) (environ : List Text) (ppid : Text)
    (cwd : Dir) (samedir : AbsPath → Bool) (ops : List (World Dir Func × CmdOp Func))
    (w : World Dir Func) (aliases : Text → Option Text) (name : Text) (nofunc : Bool)
    (path : Option Text) (idx : Option ℕ) (prog : Program) :
    let st := (Run.run Shell.worldStep (initShell files root environ ppid cwd samedir) ops).2
    (st.findCommand w name { err := true, nofunc := nofunc } (searched path)).entry =
        .ok (.normal idx) →
      shellexec w st.cwd name (path.getD st.pathval) idx = .started prog →
      (Agrees w aliases name path idx prog st ↔
        Executes w st.cwd (path.getD st.pathval) name idx ∧
          Describes w aliases nofunc name path idx st) := by
  intro st hfind hexec
  have hwf : TableWf st.cmdtable := run_wf root environ ppid samedir ops
  have hidx : '/' ∈ name → idx = none := by
    intro hslash
    have hfind := hfind
    unfold Shell.findCommand findCommand at hfind
    rw [if_pos hslash] at hfind
    exact (CmdEntry.normal.inj (Except.ok.inj hfind)).symm
  have hres := shellexec_resolved_iff hidx hexec
  have hdesc := @describeCommand_iff _ _ w name st aliases nofunc path idx hwf hfind
  constructor
  · rintro ⟨heq, htext⟩
    rw [heq] at htext
    exact ⟨hres.1 heq, hdesc.1 htext⟩
  · rintro ⟨hx, hd⟩
    have heq := hres.2 hx
    refine ⟨heq, ?_⟩
    rw [heq]
    exact hdesc.2 hd

/-! ### A built-in program that is a file too -/

/-- The files `/bin/ls` and `/bin/vi`. -/
def binFiles : List Text := ["/bin/ls".toList, "/bin/vi".toList]

def bin : Files Unit where
  stat _ p := if binFiles.contains p then .ok ⟨true, false, true⟩ else .error .enoent
  access _ p := binFiles.contains p
  execve _ p := if binFiles.contains p then .ok () else .error .enoent
  chdir _ _ := .ok ()
  getcwd _ := some ⟨"/".toList, root_abs⟩
  names _ _ := True
  stat_abs _ _ _ := rfl
  access_abs _ _ _ := rfl
  chdir_names _ := trivial
  getcwd_names _ := trivial

/-- `ls` is an applet. -/
def binWorld : World Unit Unit where
  files := bin
  toyFind name := name == "ls".toList
  toyRuns name := name == "ls".toList
  readcmdfile _ table := table
  toyFind_slash h := by
    obtain rfl := beq_iff_eq.1 h
    decide
  readcmdfile_wf h := h

def binShell : Shell Unit Unit :=
  initShell bin false ["PATH=/bin".toList] "1".toList () fun _ => false

theorem shellexec_agrees_vi :
    Agrees binWorld (fun _ => none) "vi".toList none (some 0)
      (.file "/bin/vi".toList (some 0)) binShell := by
  have hpath : binShell.pathval = "/bin".toList := by decide +kernel
  have hnone : binShell.cmdtable.find "vi".toList = none := initShell_noEntry _ _ _ _ _ _
  refine (shellexec_agrees_iff bin false ["PATH=/bin".toList] "1".toList () (fun _ => false) []
    binWorld (fun _ => none) "vi".toList false none (some 0) (.file "/bin/vi".toList (some 0))
    (by decide +kernel) (by decide +kernel)).2 ⟨?_, ?_⟩
  · refine ⟨by decide +kernel, ⟨"/bin".toList, "/bin/vi".toList, none, none⟩, ?_, rfl, ?_⟩
    · change (expansions "vi".toList 1 binShell.pathval)[0]? = _
      rw [hpath]
      decide +kernel
    · decide +kernel
  · refine ⟨by decide, rfl, ?_, ?_, ?_⟩
    · intro _ cmdp hfind
      cases hnone.symm.trans hfind
    · intro _ hslash
      exact absurd hslash (by decide)
    · intro _ _ h
      cases h

/-- `find_command` finds `/bin/ls`, and `shellexec` runs the applet. -/
theorem shellexec_not_agrees :
    (binShell.findCommand binWorld "ls".toList { err := true } .pathval).entry =
        .ok (.normal (some 0)) ∧
      shellexec binWorld binShell.cwd "ls".toList binShell.pathval (some 0) =
        .started (.applet "ls".toList) ∧
      ¬ Agrees binWorld (fun _ => none) "ls".toList none (some 0) (.applet "ls".toList)
        binShell := by
  refine ⟨by decide +kernel, by decide +kernel, ?_⟩
  rintro ⟨heq, -⟩
  cases heq

end Bootsh
