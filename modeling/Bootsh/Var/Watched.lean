import Bootsh.Var.Hooks

/-! `PATH` does not change without a call of its hook. -/
namespace Bootsh

open VFlags

def pathName : Text := "PATH".toList

/-- What follows the `=` of `PATH`. -/
def Vars.pathValue (st : Vars) : Option Val := (st.findvar pathName).bind Var.value

/-- The operation does not suppress the hook of `PATH`; `VNOFUNC` is for `OPTIND` only. -/
def VarOp.Watched : VarOp → Prop
  | .setvar name _ flags | .setvareq name flags => varName name = pathName → flags.nofunc = false
  | _ => True

instance (op : VarOp) : Decidable op.Watched := by
  cases op <;> unfold VarOp.Watched <;> infer_instance

namespace Vars

/-- `st'` comes from `st` by calls of hooks; without one of `changepath`, `PATH` is the same. -/
def PathWatched (st st' : Vars) : Prop :=
  ∃ new, st'.called = new ++ st.called ∧
    ((∀ c ∈ new, c.1 ≠ .changepath) → st'.pathValue = st.pathValue)

variable {st st' st'' : Vars} {name : Text} {vp : Var} {value : Option Val} {flags : VFlags}

theorem PathWatched.of_eq (hcalled : st'.called = st.called) (hpath : st'.pathValue = st.pathValue) :
    st.PathWatched st' := ⟨[], hcalled, fun _ => hpath⟩

theorem PathWatched.refl (st : Vars) : st.PathWatched st := .of_eq rfl rfl

theorem PathWatched.trans (h : st.PathWatched st') (h' : st'.PathWatched st'') :
    st.PathWatched st'' := by
  obtain ⟨new, hnew, hpath⟩ := h
  obtain ⟨new', hnew', hpath'⟩ := h'
  refine ⟨new' ++ new, ?_, ?_⟩
  · rw [hnew', hnew, List.append_assoc]
  · intro hno
    rw [hpath' fun c hc => hno c (List.mem_append_left _ hc),
      hpath fun c hc => hno c (List.mem_append_right _ hc)]

/-- The table changes in one place only. -/
theorem PathWatched.store (hvalue : name = pathName → vp.value = st.pathValue) :
    st.PathWatched (st.store name vp) := by
  refine .of_eq rfl ?_
  unfold pathValue
  rw [findvar_store]
  split
  case isTrue hname => exact hvalue hname.symm
  case isFalse => rfl

theorem PathWatched.callFunc (func : Option VarFunc) (value : Option Val) :
    st.PathWatched (st.callFunc func value) := by
  have hpath : (st.callFunc func value).pathValue = st.pathValue := by
    rw [pathValue, findvar, callFunc_vartab, pathValue, findvar]
  cases func with
  | none => exact .refl st
  | some f => exact ⟨[_], rfl, fun _ => hpath⟩

/-- After the hook of `PATH`, anything may be done to it. -/
theorem PathWatched.changepath {st₁ : Vars} (value : Option Val)
    (h : (st.callFunc (some .changepath) value).called = st₁.called) : st.PathWatched st₁ := by
  refine ⟨[_], h.symm, ?_⟩
  intro hno
  exact absurd rfl (hno _ (List.mem_singleton_self _))

theorem hookOf_path : hookOf pathName = some .changepath := by decide

theorem Hooks.path (h : st.Hooks) (hfind : st.findvar pathName = some vp) :
    vp.func = some .changepath := (h.func hfind).trans hookOf_path

theorem Hooks.path_find (h : st.Hooks) : ∃ vp, st.findvar pathName = some vp := by
  obtain ⟨vp, hfind, -⟩ := h.fixed (by rw [hookOf_path]; rfl : (hookOf pathName).isSome)
  exact ⟨vp, hfind⟩

theorem Hooks.setvareqVal_watched (h : st.Hooks) (hflags : name = pathName → flags.nofunc = false)
    (hok : Bootsh.setvareqVal name value flags st = .ok st') : st.PathWatched st' := by
  unfold Bootsh.setvareqVal at hok
  have hflags' : name = pathName →
      (if st.aflag then flags ||| vexport else flags).nofunc = false := by
    intro hname
    split <;> simp [hflags hname]
  generalize (if st.aflag then flags ||| vexport else flags) = flags at hok hflags'
  dsimp only at hok
  cases hfind : st.findvar name with
  | none =>
    simp only [hfind] at hok
    have hne : name ≠ pathName := by
      rintro rfl
      obtain ⟨vp, hvp⟩ := h.path_find
      rw [hfind] at hvp
      cases hvp
    split at hok
    · obtain rfl := Except.ok.inj hok
      exact .refl st
    · obtain rfl := Except.ok.inj hok
      exact .store fun heq => absurd heq hne
  | some vp =>
    simp only [hfind] at hok
    split at hok
    · cases hok
    by_cases hname : name = pathName
    · subst hname
      have hcall : (if flags.nofunc then st else st.callFunc vp.func value) =
          st.callFunc (some .changepath) value := by
        rw [if_neg (by simp [hflags' rfl]), h.path hfind]
      rw [hcall] at hok
      split at hok
      · obtain rfl := Except.ok.inj hok
        exact .changepath value rfl
      · split at hok
        · obtain rfl := Except.ok.inj hok
          exact .changepath value rfl
        · obtain rfl := Except.ok.inj hok
          exact .changepath value rfl
    · have hcall : st.PathWatched (if flags.nofunc then st else st.callFunc vp.func value) := by
        split
        · exact .refl st
        · exact .callFunc vp.func value
      split at hok
      · obtain rfl := Except.ok.inj hok
        exact hcall.trans (.store fun heq => absurd heq hname)
      · split at hok
        · obtain rfl := Except.ok.inj hok
          exact hcall.trans (.store fun heq => absurd heq hname)
        · obtain rfl := Except.ok.inj hok
          refine hcall.trans (.of_eq rfl ?_)
          rw [pathValue, findvar_delete, if_neg fun heq => hname heq.symm, pathValue]

theorem Hooks.setvar_watched {val : Option Text} (h : st.Hooks)
    (hflags : varName name = pathName → flags.nofunc = false)
    (hok : Bootsh.setvar name val flags st = .ok st') : st.PathWatched st' := by
  unfold Bootsh.setvar at hok
  split at hok
  · cases hok
  · refine h.setvareqVal_watched ?_ hok
    intro hname
    split <;> simp [hflags hname]

theorem PathWatched.orRaise {r : Except Text Vars} (hr : ∀ st', r = .ok st' → st.PathWatched st') :
    st.PathWatched (orRaise r st).2 := by
  cases r with
  | ok st' => exact hr st' rfl
  | error msg => exact .refl st

theorem Hooks.exportArg_watched {flag : VFlags} (h : st.Hooks) (hflag : flag.nofunc = false)
    (hok : Bootsh.exportArg flag name st = .ok st') : st.PathWatched st' := by
  unfold Bootsh.exportArg at hok
  split at hok
  · exact h.setvar_watched (fun _ => hflag) hok
  · split at hok
    case h_1 vp hfind =>
      obtain rfl := Except.ok.inj hok
      refine .store ?_
      rintro rfl
      simp [pathValue, hfind]
    case h_2 => exact h.setvar_watched (fun _ => hflag) hok

theorem PathWatched.linkLocal (lvp : Localvar) : st.PathWatched (linkLocal lvp st) := by
  unfold Bootsh.linkLocal
  split
  · exact .refl st
  · exact .of_eq rfl rfl

theorem Hooks.mklocal_watched (h : st.Hooks) (hflags : flags.nofunc = false) :
    st.PathWatched (Bootsh.mklocal name flags st).2 := by
  unfold Bootsh.mklocal
  split
  · exact .linkLocal _
  · split
    case h_1 =>
      split
      case h_1 => exact .refl st
      case h_2 st' hok =>
        split at hok
        · exact (h.setvareqVal_watched (fun _ => by simp [hflags]) hok).trans (.linkLocal _)
        · exact (h.setvar_watched (fun _ => by simp [hflags]) hok).trans (.linkLocal _)
    case h_2 vp hfind =>
      have hfunc : vp.func = hookOf (varName name) := h.func hfind
      have hstore : (st.store (varName name)
          { vp with flags := vp.flags ||| (vstrfixed ||| vtextfixed) }).Hooks :=
        h.store hfunc (by simp)
      have hwatched : st.PathWatched (st.store (varName name)
          { vp with flags := vp.flags ||| (vstrfixed ||| vtextfixed) }) := by
        refine .store ?_
        intro hname
        rw [hname] at hfind
        simp [pathValue, hfind]
      dsimp only
      split
      · split
        case h_1 => exact hwatched
        case h_2 st' hok =>
          exact (hwatched.trans (hstore.setvareqVal_watched (fun _ => hflags) hok)).trans
            (.linkLocal _)
      · exact hwatched.trans (.linkLocal _)

theorem Hooks.poplocalvar_watched {lvp : Localvar} (h : st.Hooks) (hlvp : SavedFixed [lvp])
    (hok : Bootsh.poplocalvar lvp st = .ok st') : st.PathWatched st' := by
  cases lvp with
  | options aflag =>
    obtain rfl := Except.ok.inj hok
    exact .of_eq rfl rfl
  | var name value flags =>
    unfold Bootsh.poplocalvar at hok
    dsimp only at hok
    cases hfind : st.findvar name with
    | none =>
      simp only [hfind] at hok
      obtain rfl := Except.ok.inj hok
      exact .refl st
    | some vp =>
      simp only [hfind] at hok
      have hfunc : vp.func = hookOf name := h.func hfind
      have hfix : (hookOf name).isSome → flags.strfixed := hlvp (List.mem_singleton_self _)
      split at hok
      case isTrue hunset =>
        have hnone : hookOf name = none := by
          by_contra hne
          have := hfix (Option.isSome_iff_ne_none.2 hne)
          simp [hunset] at this
        have hne : name ≠ pathName := by
          rintro rfl
          rw [hookOf_path] at hnone
          cases hnone
        have hstore : (st.store name
            { vp with flags := vp.flags &&& ~~~(vstrfixed ||| vreadonly) }).Hooks :=
          h.store hfunc (by simp [hnone])
        have hwatched : st.PathWatched (st.store name
            { vp with flags := vp.flags &&& ~~~(vstrfixed ||| vreadonly) }) :=
          .store fun heq => absurd heq hne
        exact hwatched.trans (hstore.setvar_watched (fun _ => rfl) hok)
      case isFalse =>
        obtain rfl := Except.ok.inj hok
        by_cases hname : name = pathName
        · subst hname
          rw [h.path hfind]
          exact .changepath value rfl
        · exact (PathWatched.callFunc vp.func value).trans (.store fun heq => absurd heq hname)

theorem Hooks.poplocalvarList_watched {l : List Localvar} (h : st.Hooks) (hl : SavedFixed l) :
    st.PathWatched (Bootsh.poplocalvarList l st).2 := by
  induction l generalizing st with
  | nil => exact .refl st
  | cons lvp next ih =>
    have hlvp : SavedFixed [lvp] := hl.head
    unfold Bootsh.poplocalvarList
    split
    case h_1 => exact .refl st
    case h_2 st' hok =>
      exact (h.poplocalvar_watched hlvp hok).trans (ih (h.poplocalvar hlvp hok) hl.tail)

theorem Hooks.poplocalvars_watched (h : st.Hooks) :
    st.PathWatched (Bootsh.poplocalvars st).2 := by
  unfold Bootsh.poplocalvars
  split
  case h_1 => exact .refl st
  case h_2 ll next hstack =>
    have hnext : ({ st with localvarStack := next } : Vars).Hooks :=
      ⟨h.func, h.fixed, fun hl => h.saved (hstack ▸ List.mem_cons_of_mem _ hl)⟩
    exact (PathWatched.of_eq rfl rfl).trans
      (hnext.poplocalvarList_watched (h.saved (hstack ▸ List.mem_cons_self)))

theorem PathWatched.lookupvar : st.PathWatched (Bootsh.lookupvar name st).2 := by
  unfold Bootsh.lookupvar
  split
  · exact .refl st
  · split
    · exact .refl st
    · dsimp only
      split
      · exact .of_eq rfl rfl
      · exact .refl st

theorem Hooks.step_watched (h : st.Hooks) {op : VarOp} (hop : op.Watched) :
    st.PathWatched (st.step op).2 := by
  cases op with
  | setvar name val flags => exact .orRaise fun _ hok => h.setvar_watched hop hok
  | setvareq s flags => exact .orRaise fun _ hok => h.setvareqVal_watched hop hok
  | unset name => exact .orRaise fun _ hok => h.setvar_watched (fun _ => rfl) hok
  | exportArg name => exact .orRaise fun _ hok => h.exportArg_watched rfl hok
  | readonlyArg name => exact .orRaise fun _ hok => h.exportArg_watched rfl hok
  | localArg name =>
    change st.PathWatched (Bootsh.localArg name st).2
    unfold Bootsh.localArg
    split
    · exact .refl st
    · exact h.mklocal_watched rfl
  | prefixAssign s => exact h.mklocal_watched rfl
  | pushlocalvars => exact .of_eq rfl rfl
  | poplocalvars => exact h.poplocalvars_watched
  | setAflag b => exact .of_eq rfl rfl
  | setLineno n => exact .of_eq rfl rfl
  | lookupvar name => exact .lookupvar

end Vars
end Bootsh
