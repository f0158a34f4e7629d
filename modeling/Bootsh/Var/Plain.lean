import Bootsh.Var.Hooks

/-! The names of variables: whatever is done to them, none has a `=` in it. -/
namespace Bootsh

open VFlags

def Vars.Plain (st : Vars) : Prop := ∀ name vp, st.findvar name = some vp → '=' ∉ name

theorem varName_plain (s : Text) : '=' ∉ varName s := by
  intro hmem
  have := List.mem_takeWhile_imp hmem
  simp at this

theorem dropWhile_eq_nil_iff {s : Text} : s.dropWhile (· ≠ '=') = [] ↔ '=' ∉ s := by
  rw [List.dropWhile_eq_nil_iff]
  constructor
  · intro h hmem
    have := h _ hmem
    simp at this
  · intro h c hc
    apply decide_eq_true
    rintro rfl
    exact h hc

/-- A text without a value is a name. -/
theorem varValue_eq_none {s : Text} : varValue s = none ↔ '=' ∉ s := by
  rw [varValue, ← dropWhile_eq_nil_iff]
  cases s.dropWhile (· ≠ '=') <;> simp

theorem varName_append_value {s value : Text} (h : varValue s = some value) :
    varName s ++ '=' :: value = s := by
  unfold varValue at h
  cases hdrop : s.dropWhile (· ≠ '=') with
  | nil =>
    rw [hdrop] at h
    cases h
  | cons c rest =>
    rw [hdrop] at h
    obtain rfl := Option.some.inj h
    have hc : c = '=' := by
      have := List.head?_dropWhile_not (· ≠ '=') s
      rw [hdrop] at this
      simpa using this
    rw [← hc, varName, ← hdrop]
    exact List.takeWhile_append_dropWhile

theorem varName_of_plain {s : Text} (h : '=' ∉ s) (rest : Text) : varName (s ++ '=' :: rest) = s := by
  rw [varName, List.takeWhile_append_of_pos]
  · simp
  · intro c hc
    apply decide_eq_true
    rintro rfl
    exact h hc

theorem varName_varText {name : Text} (h : '=' ∉ name) (buffer : Text) (value : Option Val) :
    varName (varText buffer name value) = name := by
  unfold varText
  cases value with
  | none =>
    rw [varName, List.takeWhile_eq_self_iff]
    intro c hc
    apply decide_eq_true
    rintro rfl
    exact h hc
  | some v => exact varName_of_plain h _

namespace Vars

variable {st st' : Vars} {name s : Text} {vp : Var} {value : Option Val} {flags : VFlags}

theorem Plain.same (h : st.Plain) (htab : st'.vartab = st.vartab) : st'.Plain := by
  intro n v hfind
  rw [findvar, htab] at hfind
  exact h n v hfind

theorem Plain.store (h : st.Plain) (hname : '=' ∉ name) : (st.store name vp).Plain := by
  intro n v hfind
  rw [findvar_store] at hfind
  split at hfind
  case isTrue hn => rwa [hn]
  case isFalse => exact h n v hfind

theorem Plain.delete (h : st.Plain) : (st.delete name).Plain := by
  intro n v hfind
  rw [findvar_delete] at hfind
  split at hfind
  · cases hfind
  · exact h n v hfind

theorem Plain.callFunc (h : st.Plain) (func : Option VarFunc) (value : Option Val) :
    (st.callFunc func value).Plain := h.same (callFunc_vartab func value)

theorem Plain.setvareqVal (h : st.Plain) (hname : '=' ∉ name)
    (hok : setvareqVal name value flags st = .ok st') : st'.Plain := by
  unfold Bootsh.setvareqVal at hok
  generalize (if st.aflag then flags ||| vexport else flags) = flags at hok
  dsimp only at hok
  split at hok
  case h_1 vp hfind =>
    have hcall : (if flags.nofunc then st else st.callFunc vp.func value).Plain := by
      split
      · exact h
      · exact h.callFunc vp.func value
    split at hok
    · cases hok
    · split at hok
      · obtain rfl := Except.ok.inj hok
        exact hcall.store hname
      · split at hok
        · obtain rfl := Except.ok.inj hok
          exact hcall.store hname
        · obtain rfl := Except.ok.inj hok
          exact hcall.delete
  case h_2 =>
    split at hok
    · obtain rfl := Except.ok.inj hok
      exact h
    · obtain rfl := Except.ok.inj hok
      exact h.store hname

theorem Plain.setvareq (h : st.Plain) (hok : setvareq s flags st = .ok st') : st'.Plain :=
  h.setvareqVal (varName_plain s) hok

theorem Plain.setvar {val : Option Text} (h : st.Plain) (hok : setvar name val flags st = .ok st') :
    st'.Plain := by
  unfold Bootsh.setvar at hok
  split at hok
  · cases hok
  · exact h.setvareqVal (varName_plain name) hok

theorem Plain.orRaise {r : Except Text Vars} (h : st.Plain) (hr : ∀ st', r = .ok st' → st'.Plain) :
    (orRaise r st).2.Plain := by
  cases r with
  | ok st' => exact hr st' rfl
  | error msg => exact h

theorem Plain.exportArg {flag : VFlags} (h : st.Plain) (hok : exportArg flag name st = .ok st') :
    st'.Plain := by
  unfold Bootsh.exportArg at hok
  split at hok
  case h_1 => exact h.setvar hok
  case h_2 hnone =>
    split at hok
    · obtain rfl := Except.ok.inj hok
      exact h.store (varValue_eq_none.1 hnone)
    · exact h.setvar hok

theorem Plain.linkLocal {lvp : Localvar} (h : st.Plain) : (linkLocal lvp st).Plain := by
  unfold Bootsh.linkLocal
  split
  · exact h
  · exact h.same rfl

theorem Plain.mklocal (h : st.Plain) : (mklocal name flags st).2.Plain := by
  unfold Bootsh.mklocal
  split
  · exact h.linkLocal
  · split
    case h_1 =>
      split
      · exact h
      case h_2 st' hok =>
        split at hok
        · exact (h.setvareq hok).linkLocal
        · exact (h.setvar hok).linkLocal
    case h_2 vp hfind =>
      have hstore : (st.store (varName name)
          { vp with flags := vp.flags ||| (vstrfixed ||| vtextfixed) }).Plain :=
        h.store (varName_plain name)
      dsimp only
      split
      · split
        case h_1 => exact hstore
        case h_2 st' hok => exact (hstore.setvareq hok).linkLocal
      · exact hstore.linkLocal

theorem Plain.poplocalvar {lvp : Localvar} (h : st.Plain) (hok : poplocalvar lvp st = .ok st') :
    st'.Plain := by
  unfold Bootsh.poplocalvar at hok
  split at hok
  · obtain rfl := Except.ok.inj hok
    exact h.same rfl
  · split at hok
    · obtain rfl := Except.ok.inj hok
      exact h
    case h_2 name value flags _ vp hfind =>
      have hname := h name vp hfind
      split at hok
      · exact Plain.setvar (h.store hname) hok
      · obtain rfl := Except.ok.inj hok
        exact (h.callFunc vp.func value).store hname

theorem Plain.poplocalvarList {l : List Localvar} (h : st.Plain) :
    (poplocalvarList l st).2.Plain := by
  induction l generalizing st with
  | nil => exact h
  | cons lvp next ih =>
    unfold Bootsh.poplocalvarList
    split
    case h_1 => exact h
    case h_2 st' hok => exact ih (h.poplocalvar hok)

theorem Plain.lookupvar (h : st.Plain) : (lookupvar name st).2.Plain := by
  unfold Bootsh.lookupvar
  split
  · exact h
  · split
    · exact h
    · dsimp only
      split
      · exact h.same rfl
      · exact h

theorem Plain.step (h : st.Plain) (op : VarOp) : (st.step op).2.Plain := by
  cases op with
  | setvar name val flags => exact h.orRaise fun _ hok => h.setvar hok
  | setvareq s flags => exact h.orRaise fun _ hok => h.setvareq hok
  | unset name => exact h.orRaise fun _ hok => h.setvar hok
  | exportArg name => exact h.orRaise fun _ hok => h.exportArg hok
  | readonlyArg name => exact h.orRaise fun _ hok => h.exportArg hok
  | localArg name =>
    change (Bootsh.localArg name st).2.Plain
    unfold Bootsh.localArg
    split
    · exact h
    · exact h.mklocal
  | prefixAssign s => exact h.mklocal
  | poplocalvars =>
    change (Bootsh.poplocalvars st).2.Plain
    unfold Bootsh.poplocalvars
    split
    · exact h
    · exact Plain.poplocalvarList (h.same rfl)
  | pushlocalvars | setAflag b | setLineno n => exact h.same rfl
  | lookupvar name => exact h.lookupvar

theorem Plain.importVar (h : st.Plain) : (importVar s flags st).Plain :=
  h.orRaise fun _ hok => h.setvareq hok

theorem initVars_plain (root : Bool) (environ : List Text) (ppid : Text) :
    (initVars root environ ppid).Plain := by
  have hinit : (initvar root).Plain := by
    intro name vp hfind
    have hnodup : (Chain.keys (varinit root)).Nodup := by
      cases root <;> decide
    have hplain : ∀ p ∈ varinit root, '=' ∉ p.1 := by
      cases root <;> decide
    rw [findvar_initvar] at hfind
    exact hplain (name, vp) ((Chain.mem_iff_find hnodup).2 hfind)
  have henv : (environ.foldl importEnv (initvar root)).Plain := by
    apply List.foldlRecOn environ importEnv hinit
    intro st hst s _
    unfold importEnv
    split
    · exact hst.importVar
    · exact hst
  exact henv.importVar.importVar.importVar

end Vars
end Bootsh
