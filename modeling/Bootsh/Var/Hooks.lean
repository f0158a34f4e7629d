import Bootsh.Var.Assign

/-!
The hooks of the variables: they stay with the variables of `varinit`, which are never
removed from the table.
-/
namespace Bootsh

open VFlags

/-- The hook that `varinit` gives to a variable. -/
def hookOf (name : Text) : Option VarFunc := (Chain.find name (varinit false)).bind Var.func

def SavedFixed (l : List Localvar) : Prop :=
  ∀ {name value flags}, .var name value flags ∈ l → (hookOf name).isSome → flags.strfixed

theorem SavedFixed.head {lvp : Localvar} {l : List Localvar} (h : SavedFixed (lvp :: l)) :
    SavedFixed [lvp] := fun hmem => h (List.mem_cons.2 (.inl (List.mem_singleton.1 hmem)))

theorem SavedFixed.tail {lvp : Localvar} {l : List Localvar} (h : SavedFixed (lvp :: l)) :
    SavedFixed l := fun hmem => h (List.mem_cons_of_mem _ hmem)

structure Vars.Hooks (st : Vars) : Prop where
  func : ∀ {name vp}, st.findvar name = some vp → vp.func = hookOf name
  fixed : ∀ {name}, (hookOf name).isSome → st.Fixed name
  saved : ∀ {l}, l ∈ st.localvarStack → SavedFixed l

namespace Vars

variable {st st' : Vars} {name s : Text} {vp : Var} {value : Option Val} {flags : VFlags}

theorem Hooks.same (h : st.Hooks) (htab : st'.vartab = st.vartab)
    (hstack : st'.localvarStack = st.localvarStack) : st'.Hooks := by
  have hfind : ∀ name, st'.findvar name = st.findvar name := by
    intro name
    rw [findvar, htab, findvar]
  constructor
  · intro name vp hvp
    exact h.func (hfind name ▸ hvp)
  · intro name hname
    obtain ⟨vp, hvp, hfix⟩ := h.fixed hname
    exact ⟨vp, (hfind name).trans hvp, hfix⟩
  · intro l hl
    exact h.saved (hstack ▸ hl)

theorem Hooks.uncalled (h : st.Hooks) : ({ st with called := [] } : Vars).Hooks := h.same rfl rfl

theorem called_nil (st : Vars) : ({ st with called := [] } : Vars).called = [] := rfl

theorem Hooks.store (h : st.Hooks) (hfunc : vp.func = hookOf name)
    (hfix : (hookOf name).isSome → vp.flags.strfixed) : (st.store name vp).Hooks := by
  constructor
  · intro n vp' hvp'
    rw [findvar_store] at hvp'
    split at hvp'
    case isTrue hn =>
      obtain rfl := Option.some.inj hvp'
      rw [hn, hfunc]
    case isFalse => exact h.func hvp'
  · intro n hn
    by_cases heq : n = name
    · subst heq
      exact ⟨vp, by simp, hfix hn⟩
    · obtain ⟨vp', hvp', hfix'⟩ := h.fixed hn
      exact ⟨vp', by simp [heq, hvp'], hfix'⟩
  · exact h.saved

theorem Hooks.delete (h : st.Hooks) (hname : hookOf name = none) : (st.delete name).Hooks := by
  constructor
  · intro n vp' hvp'
    rw [findvar_delete] at hvp'
    split at hvp'
    · cases hvp'
    · exact h.func hvp'
  · intro n hn
    have heq : n ≠ name := by
      rintro rfl
      simp [hname] at hn
    obtain ⟨vp', hvp', hfix'⟩ := h.fixed hn
    exact ⟨vp', by simp [heq, hvp'], hfix'⟩
  · exact h.saved

/-- A variable that is not in the table has no hook. -/
theorem Hooks.absent (h : st.Hooks) (hfind : st.findvar name = none) : hookOf name = none := by
  by_contra hne
  obtain ⟨vp, hvp, -⟩ := h.fixed (Option.isSome_iff_ne_none.2 hne)
  rw [hfind] at hvp
  cases hvp

theorem Hooks.strfixed (h : st.Hooks) (hfind : st.findvar name = some vp)
    (hname : (hookOf name).isSome) : vp.flags.strfixed := by
  obtain ⟨vp', hvp', hfix⟩ := h.fixed hname
  obtain rfl := Option.some.inj (hfind.symm.trans hvp')
  exact hfix

theorem Hooks.callFunc (h : st.Hooks) (func : Option VarFunc) (value : Option Val) :
    (st.callFunc func value).Hooks :=
  h.same (callFunc_vartab func value) (callFunc_localvarStack func value)

theorem Hooks.setvareqVal (h : st.Hooks) (hok : setvareqVal name value flags st = .ok st') :
    st'.Hooks := by
  unfold Bootsh.setvareqVal at hok
  generalize (if st.aflag then flags ||| vexport else flags) = flags at hok
  dsimp only at hok
  cases hfind : st.findvar name with
  | none =>
    simp only [hfind] at hok
    have hnone := h.absent hfind
    split at hok
    · obtain rfl := Except.ok.inj hok
      exact h
    · obtain rfl := Except.ok.inj hok
      exact h.store hnone.symm (by simp [hnone])
  | some vp =>
    simp only [hfind] at hok
    have hfunc := h.func hfind
    have hcall : (if flags.nofunc then st else st.callFunc vp.func value).Hooks := by
      split
      · exact h
      · exact h.callFunc vp.func value
    split at hok
    · cases hok
    · split at hok
      · obtain rfl := Except.ok.inj hok
        exact hcall.store hfunc fun hname => by simp [h.strfixed hfind hname]
      · split at hok
        · obtain rfl := Except.ok.inj hok
          exact hcall.store hfunc fun hname => by simp [h.strfixed hfind hname]
        case isFalse hfix =>
          obtain rfl := Except.ok.inj hok
          apply hcall.delete
          by_contra hne
          exact hfix (h.strfixed hfind (Option.isSome_iff_ne_none.2 hne))

theorem Hooks.setvareq (h : st.Hooks) (hok : setvareq s flags st = .ok st') :
    st'.Hooks := h.setvareqVal hok

theorem Hooks.setvar {val : Option Text} (h : st.Hooks) (hok : setvar name val flags st = .ok st') :
    st'.Hooks := by
  unfold Bootsh.setvar at hok
  split at hok
  · cases hok
  · exact h.setvareqVal hok

theorem Hooks.orRaise {r : Except Text Vars} (h : st.Hooks) (hr : ∀ st', r = .ok st' → st'.Hooks) :
    (orRaise r st).2.Hooks := by
  cases r with
  | ok st' => exact hr st' rfl
  | error msg => exact h

theorem Hooks.exportArg {flag : VFlags} (h : st.Hooks) (hok : exportArg flag name st = .ok st') :
    st'.Hooks := by
  unfold Bootsh.exportArg at hok
  split at hok
  · exact h.setvar hok
  · split at hok
    case h_1 vp hfind =>
      have hfunc : vp.func = hookOf name := h.func hfind
      obtain rfl := Except.ok.inj hok
      exact h.store hfunc fun hname => by simp [h.strfixed hfind hname]
    case h_2 => exact h.setvar hok

theorem Hooks.linkLocal {lvp : Localvar} (h : st.Hooks) (hlvp : SavedFixed [lvp]) :
    (linkLocal lvp st).Hooks := by
  unfold Bootsh.linkLocal
  split
  case h_1 => exact h
  case h_2 l ls hstack =>
    refine ⟨h.func, h.fixed, ?_⟩
    intro l' hl' n value flags hmem hname
    rcases List.mem_cons.1 hl' with rfl | hl'
    · rcases List.mem_cons.1 hmem with heq | hmem
      · exact hlvp (List.mem_singleton.2 heq) hname
      · exact h.saved (hstack ▸ List.mem_cons_self) hmem hname
    · exact h.saved (hstack ▸ List.mem_cons_of_mem _ hl') hmem hname

theorem savedFixed_options (aflag : Bool) : SavedFixed [.options aflag] := by
  intro name value flags hmem
  simp at hmem

theorem savedFixed_var (hfix : (hookOf name).isSome → flags.strfixed) :
    SavedFixed [.var name value flags] := by
  intro name' value' flags' hmem hname
  simp only [List.mem_singleton, Localvar.var.injEq] at hmem
  obtain ⟨rfl, rfl, rfl⟩ := hmem
  exact hfix hname

theorem Hooks.mklocal (h : st.Hooks) : (mklocal name flags st).2.Hooks := by
  unfold Bootsh.mklocal
  split
  · exact h.linkLocal (savedFixed_options _)
  · split
    case h_1 hfind =>
      have hnone := h.absent hfind
      have hsaved : SavedFixed [.var (varName name) none vunset] := savedFixed_var (by simp [hnone])
      split
      case h_1 => exact h
      case h_2 st' hok =>
        split at hok
        · exact (h.setvareq hok).linkLocal hsaved
        · exact (h.setvar hok).linkLocal hsaved
    case h_2 vp hfind =>
      have hsaved : SavedFixed [.var (varName name) vp.value vp.flags] :=
        savedFixed_var (h.strfixed hfind)
      have hfunc : vp.func = hookOf (varName name) := h.func hfind
      have hstore : (st.store (varName name)
          { vp with flags := vp.flags ||| (vstrfixed ||| vtextfixed) }).Hooks :=
        h.store hfunc (by simp)
      dsimp only
      split
      · split
        case h_1 => exact hstore
        case h_2 st' hok => exact (hstore.setvareq hok).linkLocal hsaved
      · exact hstore.linkLocal hsaved

theorem Hooks.poplocalvar {lvp : Localvar} (h : st.Hooks) (hlvp : SavedFixed [lvp])
    (hok : poplocalvar lvp st = .ok st') : st'.Hooks := by
  cases lvp with
  | options aflag =>
    obtain rfl := Except.ok.inj hok
    exact h.same rfl rfl
  | var name value flags =>
    unfold Bootsh.poplocalvar at hok
    dsimp only at hok
    cases hfind : st.findvar name with
    | none =>
      simp only [hfind] at hok
      obtain rfl := Except.ok.inj hok
      exact h
    | some vp =>
      simp only [hfind] at hok
      have hfunc : vp.func = hookOf name := h.func hfind
      have hfix : (hookOf name).isSome → flags.strfixed := hlvp (List.mem_singleton_self _)
      split at hok
      case isTrue hunset =>
        have hnone : hookOf name = none := by
          by_contra hne
          have := hfix (Option.isSome_iff_ne_none.2 hne)
          simp [hunset] at this
        have hstore : (st.store name { vp with flags := vp.flags &&& ~~~(vstrfixed ||| vreadonly) }).Hooks :=
          h.store hfunc (by simp [hnone])
        exact hstore.setvar hok
      case isFalse =>
        obtain rfl := Except.ok.inj hok
        exact (h.callFunc vp.func value).store hfunc hfix

theorem Hooks.poplocalvarList {l : List Localvar} (h : st.Hooks) (hl : SavedFixed l) :
    (poplocalvarList l st).2.Hooks := by
  induction l generalizing st with
  | nil => exact h
  | cons lvp next ih =>
    have hlvp : SavedFixed [lvp] := hl.head
    unfold Bootsh.poplocalvarList
    split
    case h_1 => exact h
    case h_2 st' hok =>
      exact ih (h.poplocalvar hlvp hok) hl.tail

theorem Hooks.poplocalvars (h : st.Hooks) : (poplocalvars st).2.Hooks := by
  unfold Bootsh.poplocalvars
  split
  case h_1 => exact h
  case h_2 ll next hstack =>
    apply Hooks.poplocalvarList
    · exact ⟨h.func, h.fixed, fun hl => h.saved (hstack ▸ List.mem_cons_of_mem _ hl)⟩
    · exact h.saved (hstack ▸ List.mem_cons_self)

theorem Hooks.lookupvar (h : st.Hooks) : (lookupvar name st).2.Hooks := by
  unfold Bootsh.lookupvar
  split
  · exact h
  · split
    · exact h
    · dsimp only
      split
      · exact h.same rfl rfl
      · exact h

/-- Every operation on the variables keeps the hooks where they are. -/
theorem Hooks.step (h : st.Hooks) (op : VarOp) : (st.step op).2.Hooks := by
  cases op with
  | setvar name val flags => exact h.orRaise fun _ hok => h.setvar hok
  | setvareq s flags => exact h.orRaise fun _ hok => h.setvareq hok
  | unset name => exact h.orRaise fun _ hok => h.setvar hok
  | exportArg name => exact h.orRaise fun _ hok => h.exportArg hok
  | readonlyArg name => exact h.orRaise fun _ hok => h.exportArg hok
  | localArg name =>
    change (Bootsh.localArg name st).2.Hooks
    unfold Bootsh.localArg
    split
    · exact h
    · exact h.mklocal
  | prefixAssign s => exact h.mklocal
  | pushlocalvars =>
    refine ⟨h.func, h.fixed, ?_⟩
    intro l hl
    rcases List.mem_cons.1 hl with rfl | hl
    · intro name value flags hmem
      simp at hmem
    · exact h.saved hl
  | poplocalvars => exact h.poplocalvars
  | setAflag b => exact h.same rfl rfl
  | setLineno n => exact h.same rfl rfl
  | lookupvar name => exact h.lookupvar

/-! ### Assignment of a variable without a hook -/

/-- A value is stored unless the variable is readonly. -/
theorem Hooks.setvareqVal_set (h : st.Hooks) (hname : hookOf name = none)
    (hset : flags.unset = false) (hro : (st.entry name).readonly = false) :
    ∃ vp, Bootsh.setvareqVal name value flags st = .ok (st.store name vp) ∧ vp.value = value ∧
      vp.flags.unset = false := by
  unfold Bootsh.setvareqVal
  have hset' : (if st.aflag then flags ||| vexport else flags).unset = false := by
    split <;> simp [hset]
  generalize (if st.aflag then flags ||| vexport else flags) = flags at hset'
  dsimp only
  cases hfind : st.findvar name with
  | none => exact ⟨⟨value, flags, none⟩, by simp [hset'], rfl, hset'⟩
  | some vp =>
    have hfunc : vp.func = none := (h.func hfind).trans hname
    have hro' : vp.flags.readonly = false := by
      rwa [entry_some hfind] at hro
    let bits := ~~~(vtextfixed ||| vstack ||| vnosave ||| vunset)
    refine ⟨⟨value, flags ||| (vp.flags &&& bits), vp.func⟩, ?_, rfl, by simp [hset', bits]⟩
    simp only [hro', hset', hfunc, Vars.callFunc, unsets_eq, Bool.false_and, Bool.not_false, if_true,
      Bool.false_eq_true, if_false, ite_self, bits]

theorem lookupvar_store_self (hvalue : vp.value = some (.text s)) (hset : vp.flags.unset = false) :
    (Bootsh.lookupvar name (st.store name vp)).1 = some s := by
  unfold Bootsh.lookupvar
  rw [findvar_store, if_pos rfl]
  simp [hset, hvalue, Val.render]

/-- What a lookup depends on. -/
theorem lookupvar_same {n : Text} (hfind : st'.findvar n = st.findvar n)
    (hlineno : st'.lineno = st.lineno) (hbuffer : st'.linenovar = st.linenovar) :
    (Bootsh.lookupvar n st').1 = (Bootsh.lookupvar n st).1 := by
  unfold Bootsh.lookupvar
  rw [hfind]
  cases st.findvar n with
  | none => rfl
  | some vp =>
    dsimp only
    split
    · rfl
    · split
      · rw [hlineno]
      · rw [hbuffer]

theorem lookupvar_store_ne {n : Text} (hn : n ≠ name) :
    (Bootsh.lookupvar n (st.store name vp)).1 = (Bootsh.lookupvar n st).1 := by
  have hfind : (st.store name vp).findvar n = st.findvar n := by rw [findvar_store, if_neg hn]
  exact lookupvar_same hfind rfl rfl

theorem lookupvar_called (name : Text) (st : Vars) (called : List (VarFunc × Text)) :
    (Bootsh.lookupvar name { st with called := called }).1 = (Bootsh.lookupvar name st).1 :=
  @lookupvar_same st { st with called := called } name rfl rfl rfl

/-- What `setvareqVal` has stored, whatever the hook. -/
structure Written (vars vars' : Vars) (name : Text) (value : Option Text) : Prop where
  value : (Bootsh.lookupvar name vars').1 = value
  others : ∀ n ≠ name, (Bootsh.lookupvar n vars').1 = (Bootsh.lookupvar n vars).1
  readonly : ∀ n, (vars'.entry n).readonly = (vars.entry n).readonly

theorem written_store {val : Option Text} {vars vars₁ : Vars} {vp : Var} (htab : vars₁.vartab = vars.vartab)
    (hlineno : vars₁.lineno = vars.lineno) (hbuffer : vars₁.linenovar = vars.linenovar)
    (hvalue : vp.value = val.map .text) (hunset : vp.flags.unset = val.isNone)
    (hro : vp.flags.readonly = (vars.entry name).readonly) :
    Written vars (vars₁.store name vp) name val := by
  have hfind : ∀ n, vars₁.findvar n = vars.findvar n := by
    intro n
    rw [findvar, htab, findvar]
  refine ⟨?_, ?_, ?_⟩
  · cases val with
    | none => simp [Bootsh.lookupvar, hunset]
    | some v => exact lookupvar_store_self hvalue hunset
  · intro n hn
    rw [lookupvar_store_ne hn]
    exact lookupvar_same (hfind n) hlineno hbuffer
  · intro n
    rw [entry_store]
    by_cases hn : n = name
    · subst hn
      rw [Function.update_self]
      exact hro
    · rw [Function.update_of_ne hn, entry, hfind, entry]

theorem setvareqVal_written {val : Option Text} {vars : Vars} (hro : (vars.entry name).readonly = false)
    (hflags : flags.readonly = false) (hunset : flags.unset = val.isNone) :
    ∃ vars', Bootsh.setvareqVal name (val.map .text) flags vars = .ok vars' ∧
      Written vars vars' name val ∧
      vars'.called = (if flags.nofunc then vars
        else vars.callFunc ((vars.findvar name).bind Var.func) (val.map .text)).called := by
  unfold Bootsh.setvareqVal
  have haflag : (if vars.aflag then flags ||| vexport else flags).readonly = false ∧
      (if vars.aflag then flags ||| vexport else flags).unset = val.isNone ∧
      (if vars.aflag then flags ||| vexport else flags).nofunc = flags.nofunc := by
    split <;> simp [hflags, hunset]
  rw [← haflag.2.2]
  generalize (if vars.aflag then flags ||| vexport else flags) = flags at haflag
  obtain ⟨hflags, hunset, -⟩ := haflag
  dsimp only
  cases hfind : vars.findvar name with
  | none =>
    have hentry : (vars.entry name).readonly = false := hro
    dsimp only
    split
    · refine ⟨vars, rfl, ⟨?_, fun _ _ => rfl, fun _ => rfl⟩, (ite_self vars).symm ▸ rfl⟩
      rename_i hun
      simp only [unsets_eq, Bool.and_eq_true] at hun
      obtain rfl : val = none := by
        rw [← Option.isNone_iff_eq_none, ← hunset]
        exact hun.1.1.1
      rw [Bootsh.lookupvar, hfind]
    · exact ⟨_, rfl, written_store rfl rfl rfl rfl hunset (hflags.trans hro.symm),
        (ite_self vars).symm ▸ rfl⟩
  | some vp =>
    have hvp : vp.flags.readonly = false := by rwa [entry_some hfind] at hro
    dsimp only
    rw [if_neg (by simp [hvp])]
    have hcall : ∃ vars₁ : Vars, (if flags.nofunc then vars
        else vars.callFunc vp.func (val.map .text)) = vars₁ ∧ vars₁.vartab = vars.vartab ∧
        vars₁.lineno = vars.lineno ∧ vars₁.linenovar = vars.linenovar := by
      split
      · exact ⟨_, rfl, rfl, rfl, rfl⟩
      · refine ⟨_, rfl, callFunc_vartab _ _, callFunc_lineno _ _, ?_⟩
        cases vp.func <;> rfl
    obtain ⟨vars₁, hvars₁, htab, hlineno, hbuffer⟩ := hcall
    rw [Option.bind_some]
    rw [hvars₁]
    split
    · refine ⟨_, rfl, written_store htab hlineno hbuffer rfl (by simp [hunset]) ?_, rfl⟩
      simp [hflags, hvp, hro]
    · rename_i hun
      simp only [unsets_eq, Bool.not_eq_true', Bool.not_eq_false, Bool.and_eq_true] at hun
      obtain rfl : val = none := by
        rw [← Option.isNone_iff_eq_none, ← hunset]
        exact hun.1.1.1
      split
      · refine ⟨_, rfl, written_store htab hlineno hbuffer rfl (by simp [hunset]) ?_, rfl⟩
        simp [hflags, hvp, hro]
      · refine ⟨_, rfl, ⟨?_, ?_, ?_⟩, rfl⟩
        · simp [Bootsh.lookupvar]
        · intro n hn
          have hfind' : (vars₁.delete name).findvar n = vars.findvar n := by
            rw [findvar_delete, if_neg hn, findvar, htab, findvar]
          exact lookupvar_same hfind' hlineno hbuffer
        · intro n
          rw [entry_delete]
          by_cases hn : n = name
          · subst hn
            rw [Function.update_self, hro]
            rfl
          · rw [Function.update_of_ne hn, entry, findvar, htab]
            rfl

/-! ### The initial store -/

theorem findvar_initvar (root : Bool) (name : Text) :
    (initvar root).findvar name = Chain.find name (varinit root) := by
  change HashTable.find ((varinit root).foldr (fun p t => t.put p.1 p.2) HashTable.empty) name = _
  induction varinit root with
  | nil => rfl
  | cons p l ih => simp [Chain.find, ih, eq_comm]

theorem find_map_func (name : Text) (l : List (Text × Var)) :
    (Chain.find name l).bind Var.func = (Chain.find name (l.map fun p => (p.1, p.2.func))).join := by
  induction l with
  | nil => rfl
  | cons p l ih =>
    simp only [List.map_cons, Chain.find]
    split
    · rfl
    · exact ih

/-- The hooks do not depend on the user. -/
theorem hookOf_eq (root : Bool) (name : Text) :
    hookOf name = (Chain.find name (varinit root)).bind Var.func := by
  have hmap : (varinit root).map (fun p => (p.1, p.2.func)) =
      (varinit false).map fun p => (p.1, p.2.func) := by
    cases root <;> decide
  rw [hookOf, find_map_func, find_map_func, hmap]

theorem initvar_hooks (root : Bool) : (initvar root).Hooks := by
  have hnodup : (Chain.keys (varinit root)).Nodup := by
    cases root <;> decide
  have hfix : ∀ p ∈ varinit root, p.2.flags.strfixed = true := by
    cases root <;> decide
  constructor
  · intro name vp hfind
    rw [findvar_initvar] at hfind
    rw [hookOf_eq root, hfind, Option.bind_some]
  · intro name hname
    rw [hookOf_eq root, Option.isSome_bind] at hname
    cases hfind : Chain.find name (varinit root) with
    | none => simp [hfind] at hname
    | some vp =>
      exact ⟨vp, (findvar_initvar root name).trans hfind,
        hfix (name, vp) ((Chain.mem_iff_find hnodup).2 hfind)⟩
  · intro l hl
    cases hl

theorem Hooks.importVar (h : st.Hooks) : (importVar s flags st).Hooks :=
  h.orRaise fun _ hok => h.setvareq hok

theorem initVars_hooks (root : Bool) (environ : List Text) (ppid : Text) :
    (initVars root environ ppid).Hooks := by
  have henv : (environ.foldl importEnv (initvar root)).Hooks := by
    apply List.foldlRecOn environ importEnv (initvar_hooks root)
    intro st hst s _
    unfold importEnv
    split
    · exact hst.importVar
    · exact hst
  exact henv.importVar.importVar.importVar

end Vars
end Bootsh
