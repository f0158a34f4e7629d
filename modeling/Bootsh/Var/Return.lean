import Bootsh.Var.Refine

/-!
The return from a function restores the entries of the caller, so that every run of
the variable store is one of the abstract store.
-/
namespace Bootsh

open VFlags Binding

namespace Vars

variable {st st' : Vars} {name : Text} {value : Option Val} {flags : VFlags}

/-- `st` while `l` is still to be undone. -/
def undoing (st : Vars) (l : List Localvar) : Vars :=
  { st with localvarStack := l :: st.localvarStack }

/-- One turn of `poplocalvars` has undone `lvp`. -/
structure Undone (lvp : Localvar) (l : List Localvar) (st st' : Vars) : Prop where
  inv : (st'.undoing l).Inv
  stack : st'.localvarStack = st.localvarStack
  lineno : st'.lineno = st.lineno
  entry : st'.entry = Shallow.restore lvp.log.toList st.entry
  aflag : st'.aflag = (lvp.optLog.map Prod.snd).getD st.aflag

theorem isInName_ne_eq {c : Char} (h : isInName c) : c ≠ '=' := by
  rintro rfl
  exact absurd h (by decide)

theorem isName_isInName {c : Char} (h : isName c) : isInName c := by
  rw [isName, Bool.or_eq_true] at h
  rw [isInName, isAlnum, Bool.or_eq_true, Bool.or_eq_true]
  rcases h with h | h
  · exact .inl h
  · exact .inr (.inl h)

theorem isInName_of_good (h : isGoodName name) : ∀ c ∈ name, isInName c := by
  cases name with
  | nil => simp
  | cons c cs =>
    simp only [isGoodName, endofname, Bool.and_eq_true, decide_eq_true_eq] at h
    obtain ⟨-, h⟩ := h
    split_ifs at h with hc
    · have hlen : (cs.takeWhile isInName).length = cs.length := by simpa using h
      have hcs : cs.takeWhile isInName = cs := (List.takeWhile_prefix _).eq_of_length hlen
      intro d hd
      rcases List.mem_cons.1 hd with rfl | hd
      · exact isName_isInName hc
      · exact List.takeWhile_eq_self_iff.1 hcs d hd
    · simp at h

theorem ne_eq_of_good (h : isGoodName name) : ∀ c ∈ name, c ≠ '=' :=
  fun c hc => isInName_ne_eq (isInName_of_good h c hc)

theorem varName_of_good (h : isGoodName name) : varName name = name :=
  List.takeWhile_eq_self_iff.2 fun c hc => decide_eq_true (ne_eq_of_good h c hc)

theorem Inv.undo {l : List Localvar} {o : Option Var}
    (h : (st.undoing (.var name value flags :: l)).Inv)
    (hfind : ∀ n, st'.findvar n = if n = name then o else st.findvar n)
    (hstack : st'.localvarStack = st.localvarStack)
    (hok : ∀ vp, o = some vp → VarOk vp.value vp.flags)
    (hfix : Occurs name (l ++ st.localvarStack.flatten) → ∃ vp, o = some vp ∧ vp.flags.strfixed) :
    (st'.undoing l).Inv := by
  obtain ⟨hgood, -, -, hpending⟩ := h.pending
  have hflatten : (st'.undoing l).localvarStack.flatten = l ++ st.localvarStack.flatten := by
    simp [undoing, hstack]
  refine ⟨?_, ?_, ?_⟩
  · intro n vp hvp
    have hvp := (hfind n).symm.trans hvp
    split_ifs at hvp with hn
    · exact ⟨hn ▸ hgood, hok vp hvp⟩
    · exact h.var hvp
  · rw [hflatten]
    exact hpending
  · intro n hocc
    rw [hflatten] at hocc
    by_cases hn : n = name
    · subst hn
      obtain ⟨vp, hvp, hs⟩ := hfix hocc
      exact ⟨vp, (hfind n).trans ((if_pos rfl).trans hvp), hs⟩
    · obtain ⟨value', flags', hmem⟩ := hocc
      obtain ⟨vp, hvp, hs⟩ := h.fixed ⟨value', flags', List.mem_cons_of_mem _ hmem⟩
      exact ⟨vp, (hfind n).trans ((if_neg hn).trans hvp), hs⟩

theorem entry_of_find {o : Option Var}
    (hfind : ∀ n, st'.findvar n = if n = name then o else st.findvar n) :
    st'.entry = Function.update st.entry name ((o.map Var.entry).getD .absent) := by
  funext n
  by_cases hn : n = name
  · rw [hn, Function.update_self, entry, hfind, if_pos rfl]
  · rw [Function.update_of_ne hn, entry, entry, hfind, if_neg hn]

/-- A variable that did not exist is removed again. -/
theorem poplocalvar_new {l : List Localvar} (h : (st.undoing (.var name value vunset :: l)).Inv)
    (haflag : st.aflag = false) :
    ∃ st', poplocalvar (.var name value vunset) st = .ok st' ∧
      Undone (.var name value vunset) l st st' := by
  obtain ⟨hgood, -, hrest, -⟩ := h.pending
  obtain ⟨vp, hfind, -⟩ := h.fixed ⟨value, vunset, List.mem_cons_self ..⟩
  have hfind : st.findvar name = some vp := hfind
  generalize hst₁ : st.store name { vp with flags := vp.flags &&& ~~~(vstrfixed ||| vreadonly) } = st₁
  have hfind₁ : st₁.findvar name =
      some { vp with flags := vp.flags &&& ~~~(vstrfixed ||| vreadonly) } := by
    rw [← hst₁, findvar_store, if_pos rfl]
  have haflag₁ : st₁.aflag = false := by
    rw [← hst₁]
    exact haflag
  have hunset : unsetvar name st₁ = .ok ((st₁.callFunc vp.func none).delete name) := by
    simp [unsetvar, setvar, varName_of_good hgood, hgood, setvareqVal, haflag₁, hfind₁]
  have hfind' : ∀ n, ((st₁.callFunc vp.func none).delete name).findvar n =
      if n = name then none else st.findvar n := by
    intro n
    rw [findvar_delete]
    split_ifs with hn
    · rfl
    · rw [findvar, callFunc_vartab, ← findvar, ← hst₁, findvar_store, if_neg hn]
  have hstack : ((st₁.callFunc vp.func none).delete name).localvarStack = st.localvarStack := by
    rw [delete, callFunc_localvarStack, ← hst₁]
    rfl
  refine ⟨(st₁.callFunc vp.func none).delete name, ?_, ?_, hstack, ?_, ?_, ?_⟩
  · simp only [poplocalvar, hfind, if_true, hst₁]
    exact hunset
  · exact h.undo hfind' hstack (by simp) fun hocc => by simpa using hrest hocc
  · rw [delete, callFunc_lineno, ← hst₁]
    rfl
  · exact entry_of_find hfind'
  · rw [delete, callFunc_aflag, haflag₁, haflag]
    rfl

theorem poplocalvar_spec {lvp : Localvar} {l : List Localvar} (h : (st.undoing (lvp :: l)).Inv)
    (hok : PopOk (lvp :: l) st.aflag) :
    ∃ st', poplocalvar lvp st = .ok st' ∧ Undone lvp l st st' := by
  cases lvp with
  | options aflag =>
    refine ⟨{ st with aflag }, rfl, ⟨?_, ?_, ?_⟩, rfl, rfl, rfl, rfl⟩
    · exact h.var
    · exact h.pending
    · rintro n ⟨value, flags, hmem⟩
      exact h.fixed ⟨value, flags, List.mem_cons_of_mem _ hmem⟩
  | var name value flags =>
    by_cases hflags : flags = vunset
    · subst hflags
      exact poplocalvar_new h (hok.1 rfl)
    · obtain ⟨-, hvar, hrest, -⟩ := h.pending
      have hvar := hvar.resolve_left fun hnew => hflags hnew.1
      obtain ⟨vp, hfind, -⟩ := h.fixed ⟨value, flags, List.mem_cons_self ..⟩
      have hfind : st.findvar name = some vp := hfind
      have hfind' : ∀ n, ((st.callFunc vp.func value).store name ⟨value, flags, vp.func⟩).findvar n =
          if n = name then some ⟨value, flags, vp.func⟩ else st.findvar n := by
        intro n
        rw [findvar_store, findvar, callFunc_vartab, ← findvar]
      have hstack : ((st.callFunc vp.func value).store name ⟨value, flags, vp.func⟩).localvarStack =
          st.localvarStack := callFunc_localvarStack ..
      refine ⟨(st.callFunc vp.func value).store name ⟨value, flags, vp.func⟩, ?_, ?_, hstack,
        callFunc_lineno .., entry_of_find hfind', callFunc_aflag ..⟩
      · rw [poplocalvar, hfind]
        exact if_neg hflags
      · refine h.undo hfind' hstack ?_ fun hocc => ⟨_, rfl, hrest hocc⟩
        rintro vp' ⟨⟩
        exact hvar

theorem PopOk.tail {lvp : Localvar} {l : List Localvar} {aflag : Bool}
    (h : PopOk (lvp :: l) aflag) : PopOk l ((lvp.optLog.map Prod.snd).getD aflag) := by
  cases lvp with
  | options a => exact h
  | var name value flags => exact h.2

theorem restore_toList {K V : Type*} [DecidableEq K] {α : Type*} (f : α → Option (K × V)) (a : α)
    (l : List α) (cur : K → V) :
    Shallow.restore (List.filterMap f (a :: l)) cur =
      Shallow.restore (List.filterMap f l) (Shallow.restore (f a).toList cur) := by
  rw [List.filterMap_cons]
  cases f a <;> rfl

theorem poplocalvarList_spec {l : List Localvar} (h : (st.undoing l).Inv) (hok : PopOk l st.aflag) :
    ∃ st', poplocalvarList l st = (none, st') ∧ st'.Inv ∧ st'.localvarStack = st.localvarStack ∧
      st'.lineno = st.lineno ∧ st'.entry = Shallow.restore (l.filterMap Localvar.log) st.entry ∧
      (fun _ => st'.aflag) = Shallow.restore (l.filterMap Localvar.optLog) fun _ => st.aflag := by
  induction l generalizing st with
  | nil => exact ⟨st, rfl, ⟨h.var, h.pending, h.fixed⟩, rfl, rfl, rfl, rfl⟩
  | cons lvp l ih =>
    obtain ⟨st₁, hst₁, hu⟩ := poplocalvar_spec h hok
    have hok₁ : PopOk l st₁.aflag := by
      rw [hu.aflag]
      exact PopOk.tail hok
    obtain ⟨st', hst', hinv, hstack, hlineno, hentry, haflag⟩ := ih hu.inv hok₁
    have hopt : (fun _ => st₁.aflag) = Shallow.restore lvp.optLog.toList fun _ => st.aflag := by
      rw [hu.aflag]
      cases lvp <;> rfl
    refine ⟨st', ?_, hinv, hstack.trans hu.stack, hlineno.trans hu.lineno, ?_, ?_⟩
    · rw [poplocalvarList, hst₁]
      exact hst'
    · rw [hentry, hu.entry, restore_toList]
    · rw [haflag, hopt, restore_toList]

end Vars

namespace Rel

variable {st : Vars} {sc : Scoped}

theorem poplocalvars (h : Rel st sc) (hok : PopOk (st.localvarStack.headD []) st.aflag) :
    RelResult (Bootsh.poplocalvars st) (none, { sc with vars := sc.vars.pop, opts := sc.opts.pop }) := by
  have hvars := h.vars.pop
  have hopts := h.opts.pop
  unfold Bootsh.poplocalvars
  cases hstack : st.localvarStack with
  | nil =>
    have hview : st.view.pop = st.view := by simp [Shallow.pop, Vars.view, hstack]
    have hopt : st.optView.pop = st.optView := by simp [Shallow.pop, Vars.optView, hstack]
    rw [hview] at hvars
    rw [hopt] at hopts
    exact ⟨rfl, h.inv, hvars, hopts, h.lineno⟩
  | cons l ls =>
    rw [hstack] at hok
    have hundo : Vars.undoing { st with localvarStack := ls } l = st := by
      rw [Vars.undoing, ← hstack]
    obtain ⟨st', hst', hinv, hstack', hlineno, hentry, haflag⟩ :=
      @Vars.poplocalvarList_spec { st with localvarStack := ls } l (hundo ▸ h.inv) hok
    have hview : st.view.pop = st'.view := by
      simp only [Shallow.pop, Vars.view, hstack, List.map_cons, hentry, hstack']
      rfl
    have hopt : st.optView.pop = st'.optView := by
      simp only [Shallow.pop, Vars.optView, hstack, List.map_cons, haflag, hstack']
    rw [hview] at hvars
    rw [hopt] at hopts
    dsimp only
    rw [hst']
    exact ⟨rfl, hinv, hvars, hopts, hlineno.trans h.lineno⟩

theorem nil_iff (h : Rel st sc) : st.localvarStack = [] ↔ sc.vars.frames = [] := by
  have hrel := h.vars
  unfold Refines Vars.view at hrel
  cases hstack : st.localvarStack <;> cases hframes : sc.vars.frames <;>
    simp [hstack, hframes, RefinesIn] at hrel ⊢

theorem localOptions (h : Rel st sc) :
    Rel (linkLocal (.options st.aflag) st) { sc with opts := sc.opts.declare () } := by
  cases hstack : st.localvarStack with
  | nil =>
    have hlink : linkLocal (.options st.aflag) st = st := by rw [linkLocal, hstack]
    have hsave : st.optView.save () = st.optView := by simp [Shallow.save, Vars.optView, hstack]
    have hopts := h.opts.save ()
    rw [hsave] at hopts
    rw [hlink]
    exact ⟨h.inv, h.vars, hopts, h.lineno⟩
  | cons l ls =>
    have hlink : linkLocal (.options st.aflag) st =
        { st with localvarStack := (.options st.aflag :: l) :: ls } := by rw [linkLocal, hstack]
    have hview : Vars.view { st with localvarStack := (.options st.aflag :: l) :: ls } = st.view := by
      simp only [Vars.view, hstack, List.map_cons]
      rfl
    have hsave : Vars.optView { st with localvarStack := (.options st.aflag :: l) :: ls } =
        st.optView.save () := by
      simp only [Shallow.save, Vars.optView, hstack, List.map_cons]
      rfl
    rw [hlink]
    refine ⟨⟨h.inv.var, ?_, ?_⟩, hview ▸ h.vars, hsave ▸ h.opts.save (), h.lineno⟩
    · have hpending := h.inv.pending
      rwa [hstack] at hpending
    · rintro n ⟨value, flags, hmem⟩
      apply h.inv.fixed
      refine ⟨value, flags, ?_⟩
      rw [hstack]
      simpa using hmem

theorem lookupvar (h : Rel st sc) (name : Text) : Rel (Bootsh.lookupvar name st).2 sc := by
  unfold Bootsh.lookupvar
  split
  · exact h
  · dsimp only
    split_ifs
    · exact h
    · exact ⟨⟨h.inv.var, h.inv.pending, h.inv.fixed⟩, h.vars, h.opts, h.lineno⟩
    · exact h

/-- One operation. -/
theorem step (h : Rel st sc) (op : VarOp) (hok : st.Careful op) :
    RelResult (st.step op) (sc.step op) := by
  cases op with
  | setvar name val flags =>
    cases val with
    | none => exact h.setvar nofun fun _ => hok
    | some v => exact h.setvar (fun _ => hok) nofun
  | setvareq s flags => exact h.setvareq hok.1 hok.2.1 hok.2.2
  | unset name => exact h.setvar nofun fun _ => hok
  | exportArg name => exact h.exportArg rfl (.inl rfl) fun _ _ => .inl rfl
  | readonlyArg name => exact h.exportArg rfl (.inr rfl) hok
  | localArg name =>
    unfold Vars.step Scoped.step Bootsh.localArg
    dsimp only
    by_cases hstack : st.localvarStack = []
    · rw [if_pos hstack, if_pos (h.nil_iff.1 hstack)]
      exact ⟨rfl, h⟩
    · rw [if_neg hstack, if_neg fun hf => hstack (h.nil_iff.2 hf)]
      by_cases hname : name = ['-']
      · subst hname
        exact ⟨rfl, h.localOptions⟩
      · exact h.mklocal hname hstack rfl (hok hname hstack) fun _ => rfl
  | prefixAssign s =>
    obtain ⟨hstack, hgood, hvalue⟩ := hok
    have hname : s ≠ ['-'] := by
      rintro rfl
      exact absurd hgood (by decide)
    exact h.mklocal hname hstack rfl (by rwa [if_neg hvalue]) fun hnone => absurd hnone hvalue
  | pushlocalvars =>
    refine ⟨rfl, ⟨h.inv.var, h.inv.pending, h.inv.fixed⟩, h.vars.push, h.opts.push, h.lineno⟩
  | poplocalvars => exact h.poplocalvars hok
  | setAflag b =>
    have hopt : Vars.optView { st with aflag := b } = st.optView.assign () b := by
      simp only [Shallow.assign, Vars.optView, Shallow.mk.injEq, and_true]
      funext u
      simp
    exact ⟨rfl, ⟨h.inv.var, h.inv.pending, h.inv.fixed⟩, h.vars, hopt ▸ h.opts.assign () b, h.lineno⟩
  | setLineno n => exact ⟨rfl, ⟨h.inv.var, h.inv.pending, h.inv.fixed⟩, h.vars, h.opts, rfl⟩
  | lookupvar name => exact ⟨rfl, h.lookupvar name⟩

end Rel
end Bootsh
