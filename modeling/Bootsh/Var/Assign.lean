import Bootsh.Var.Scoped

/-!
What the variable store says of a name, the invariants of its flags, and what
`setvareq` does to both.
-/
namespace Bootsh

open VFlags Binding

/-! ### What the store says -/

def entryOf (value : Option Val) (flags : VFlags) : Entry :=
  ⟨if flags.unset then none else value, flags.exported, flags.readonly⟩

def Var.entry (vp : Var) : Entry := entryOf vp.value vp.flags

def Vars.entry (st : Vars) (name : Text) : Entry :=
  ((st.findvar name).map Var.entry).getD .absent

/-- The entry that a `localvar` restores. -/
def Localvar.log : Localvar → Option (Text × Entry)
  | .options _ => none
  | .var name value flags => some (name, entryOf value flags)

def Localvar.optLog : Localvar → Option (Unit × Bool)
  | .options aflag => some ((), aflag)
  | .var _ _ _ => none

/-- The variables as current bindings and logs. -/
def Vars.view (st : Vars) : Shallow Text Entry :=
  ⟨st.entry, st.localvarStack.map (List.filterMap Localvar.log)⟩

def Vars.optView (st : Vars) : Shallow Unit Bool :=
  ⟨fun _ => st.aflag, st.localvarStack.map (List.filterMap Localvar.optLog)⟩

/-! ### Invariants -/

/-- A variable has a value unless it is unset, and an unset one is kept for its flags. -/
structure VarOk (value : Option Val) (flags : VFlags) : Prop where
  unset : flags.unset = value.isNone
  kept : flags.unset → flags.exported ∨ flags.readonly ∨ flags.strfixed

def Occurs (name : Text) (l : List Localvar) : Prop := ∃ value flags, .var name value flags ∈ l

/-- What the latest entries of a list rely on: only the oldest entry for a variable
can restore one that is not `VSTRFIXED`. -/
def Pending : List Localvar → Prop
  | [] => True
  | .options _ :: l => Pending l
  | .var name value flags :: l =>
    isGoodName name ∧ (flags = vunset ∧ value = none ∨ VarOk value flags) ∧
      (Occurs name l → flags.strfixed) ∧ Pending l

def Vars.Fixed (st : Vars) (name : Text) : Prop :=
  ∃ vp, st.findvar name = some vp ∧ vp.flags.strfixed

structure Vars.Inv (st : Vars) : Prop where
  var : ∀ {name vp}, st.findvar name = some vp → isGoodName name ∧ VarOk vp.value vp.flags
  pending : Pending st.localvarStack.flatten
  fixed : ∀ {name}, Occurs name st.localvarStack.flatten → st.Fixed name

namespace Vars

variable {st st' : Vars} {name name' : Text} {vp : Var} {value : Option Val} {flags : VFlags}

@[simp] theorem findvar_store :
    (st.store name vp).findvar name' = if name' = name then some vp else st.findvar name' :=
  HashTable.find_put

@[simp] theorem findvar_delete :
    (st.delete name).findvar name' = if name' = name then none else st.findvar name' :=
  HashTable.find_erase

@[simp] theorem callFunc_vartab (func : Option VarFunc) (value : Option Val) :
    (st.callFunc func value).vartab = st.vartab := by
  cases func <;> rfl

@[simp] theorem callFunc_localvarStack (func : Option VarFunc) (value : Option Val) :
    (st.callFunc func value).localvarStack = st.localvarStack := by
  cases func <;> rfl

@[simp] theorem callFunc_aflag (func : Option VarFunc) (value : Option Val) :
    (st.callFunc func value).aflag = st.aflag := by
  cases func <;> rfl

@[simp] theorem callFunc_lineno (func : Option VarFunc) (value : Option Val) :
    (st.callFunc func value).lineno = st.lineno := by
  cases func <;> rfl

theorem entry_some (h : st.findvar name = some vp) : st.entry name = vp.entry := by
  rw [entry, h]
  rfl

theorem entry_none (h : st.findvar name = none) : st.entry name = .absent := by
  rw [entry, h]
  rfl

@[simp] theorem entry_store : (st.store name vp).entry = Function.update st.entry name vp.entry := by
  funext n
  by_cases hn : n = name
  · subst hn
    rw [Function.update_self]
    exact entry_some (by simp)
  · rw [Function.update_of_ne hn]
    simp [entry, hn]

@[simp] theorem entry_delete : (st.delete name).entry = Function.update st.entry name .absent := by
  funext n
  by_cases hn : n = name
  · subst hn
    rw [Function.update_self]
    exact entry_none (by simp)
  · rw [Function.update_of_ne hn]
    simp [entry, hn]

theorem Inv.bad_name (h : st.Inv) (hbad : ¬ isGoodName name) : st.findvar name = none := by
  cases hfind : st.findvar name with
  | none => rfl
  | some vp => exact absurd (h.var hfind).1 hbad

/-- The stack, the options and the line number are as before. -/
structure SameRest (st st' : Vars) : Prop where
  stack : st'.localvarStack = st.localvarStack
  aflag : st'.aflag = st.aflag
  lineno : st'.lineno = st.lineno

/-- `st'` differs from `st` in the variable `name`, which has the entry `e`. -/
structure Assigned (st st' : Vars) (name : Text) (e : Entry) : Prop extends SameRest st st' where
  entry : st'.entry = Function.update st.entry name e
  inv : st'.Inv
  fixed : st.Fixed name → st'.Fixed name

theorem Inv.same (h : st.Inv) (htab : st'.vartab = st.vartab)
    (hstack : st'.localvarStack = st.localvarStack) : st'.Inv := by
  have hfind : ∀ name, st'.findvar name = st.findvar name := by
    intro name
    rw [findvar, htab]
    rfl
  constructor
  · intro name vp hvp
    exact h.var (hfind name ▸ hvp)
  · rw [hstack]
    exact h.pending
  · intro name hocc
    obtain ⟨vp, hvp, hfix⟩ := h.fixed (hstack ▸ hocc)
    exact ⟨vp, (hfind name).trans hvp, hfix⟩

theorem Inv.store (h : st.Inv) (hgood : isGoodName name) (hok : VarOk vp.value vp.flags)
    (hfix : Occurs name st.localvarStack.flatten → vp.flags.strfixed) : (st.store name vp).Inv := by
  constructor
  · intro n vp' hvp'
    rw [findvar_store] at hvp'
    split_ifs at hvp' with hn
    · obtain rfl := Option.some.inj hvp'
      exact ⟨hn ▸ hgood, hok⟩
    · exact h.var hvp'
  · exact h.pending
  · intro n hocc
    by_cases hn : n = name
    · subst hn
      exact ⟨vp, by simp, hfix hocc⟩
    · obtain ⟨vp', hvp', hfix'⟩ := h.fixed hocc
      exact ⟨vp', by simp [hn, hvp'], hfix'⟩

theorem Inv.delete (h : st.Inv) (hnot : ¬ Occurs name st.localvarStack.flatten) :
    (st.delete name).Inv := by
  constructor
  · intro n vp' hvp'
    rw [findvar_delete] at hvp'
    split_ifs at hvp' with hn
    exact h.var hvp'
  · exact h.pending
  · intro n hocc
    have hn : n ≠ name := by
      rintro rfl
      exact hnot hocc
    obtain ⟨vp', hvp', hfix'⟩ := h.fixed hocc
    exact ⟨vp', by simp [hn, hvp'], hfix'⟩

/-! ### Assignment -/

/-- The flags that `setvareq` works with. -/
theorem aflag_flags (aflag : Bool) (flags : VFlags) :
    (if aflag then flags ||| vexport else flags) =
      { flags with exported := flags.exported || aflag } := by
  cases aflag <;> simp [VFlags.or, vexport]

section
variable {aflag : Bool} {old : VFlags} (hbare : flags.unset = value.isNone)
  (haflag : value = none → flags.exported ∨ aflag = false)

include hbare in
theorem newEntry_unsets {e : Entry}
    (hun : { flags with exported := flags.exported || aflag : VFlags }.unsets) :
    Scoped.newEntry e value flags aflag = .absent := by
  simp only [unsets_eq, hbare, Bool.and_eq_true, Bool.not_eq_true', Bool.or_eq_false_iff] at hun
  obtain ⟨⟨⟨hnone, he, -⟩, hr⟩, hs⟩ := hun
  simp [Scoped.newEntry, hnone, he, hr, hs]

include hbare haflag in
theorem newEntry_kept {e : Entry}
    (hun : ¬ { flags with exported := flags.exported || aflag : VFlags }.unsets) :
    Scoped.newEntry e value flags aflag =
      ⟨value, (flags.exported || aflag) || e.exported, flags.readonly⟩ := by
  simp only [unsets_eq, hbare, Bool.and_eq_true, Bool.not_eq_true', Bool.or_eq_false_iff] at hun
  have hnot : ¬ (value.isNone && !flags.exported && !flags.readonly && !flags.strfixed) = true := by
    simp only [Bool.and_eq_true, Bool.not_eq_true', not_and]
    intro ⟨⟨hnone, he⟩, hr⟩ hs
    rcases haflag (Option.isNone_iff_eq_none.1 hnone) with h | h
    · simp [h] at he
    · exact hun ⟨⟨⟨hnone, he, h⟩, hr⟩, hs⟩
  rw [Scoped.newEntry, if_neg hnot]
  cases value with
  | none =>
    rcases haflag rfl with h | h <;> simp [h, Bool.or_comm]
  | some v => simp [Bool.or_comm, Bool.or_left_comm]

end

/-- What is left after `setvareq` has replaced a variable. -/
theorem Inv.replace {st₁ : Vars} (h : st.Inv) (htab : st₁.vartab = st.vartab)
    (hsame : SameRest st st₁) (hfind : st.findvar name = some vp) (vp' : Var)
    (hok : VarOk vp'.value vp'.flags) (hfix : vp.flags.strfixed → vp'.flags.strfixed) :
    Assigned st (st₁.store name vp') name vp'.entry := by
  have hinv : st₁.Inv := h.same htab hsame.stack
  have hentry : st₁.entry = st.entry := by
    funext n
    rw [entry, entry, findvar, findvar, htab]
  refine ⟨⟨hsame.stack, hsame.aflag, hsame.lineno⟩, ?_, ?_, ?_⟩
  · rw [entry_store, hentry]
  · apply hinv.store (h.var hfind).1 hok
    intro hocc
    rw [hsame.stack] at hocc
    obtain ⟨vp₂, hvp₂, hfix₂⟩ := h.fixed hocc
    obtain rfl := Option.some.inj (hfind.symm.trans hvp₂)
    exact hfix hfix₂
  · rintro ⟨vp₂, hvp₂, hfix₂⟩
    obtain rfl := Option.some.inj (hfind.symm.trans hvp₂)
    exact ⟨vp', by simp, hfix hfix₂⟩

/-- `setvareq` assigns, unless the variable is readonly. -/
theorem setvareqVal_spec (h : st.Inv) (hgood : isGoodName name) (hbare : flags.unset = value.isNone)
    (haflag : value = none → flags.exported ∨ st.aflag = false)
    (hro : (st.entry name).readonly = false) :
    ∃ st', setvareqVal name value flags st = .ok st' ∧
      Assigned st st' name (Scoped.newEntry (st.entry name) value flags st.aflag) ∧
      (flags.strfixed → st'.Fixed name) := by
  unfold setvareqVal
  rw [aflag_flags]
  dsimp only
  have hvalue : (if flags.unset then none else value) = value := by
    cases value <;> simp [hbare]
  cases hfind : st.findvar name with
  | none =>
    have habsent := entry_none hfind
    rw [habsent]
    dsimp only
    split_ifs with hun
    · have hentry : st.entry = Function.update st.entry name .absent :=
        (Function.update_eq_self_iff.2 habsent.symm).symm
      refine ⟨st, rfl, ⟨⟨rfl, rfl, rfl⟩, ?_, h, id⟩, ?_⟩
      · rwa [newEntry_unsets hbare hun]
      · intro hs
        simp [hs] at hun
    · refine ⟨_, rfl, ⟨⟨rfl, rfl, rfl⟩, ?_, ?_, ?_⟩, fun hs => ⟨_, findvar_store.trans (if_pos rfl), hs⟩⟩
      · rw [entry_store, newEntry_kept hbare haflag hun]
        simp [Var.entry, entryOf, hvalue, Entry.absent]
      · refine h.store hgood ⟨hbare, ?_⟩ ?_
        · intro hu
          have hu : flags.unset = true := hu
          simpa [hu, or_assoc, imp_iff_not_or, not_and_or] using hun
        · intro hocc
          obtain ⟨vp, hvp, -⟩ := h.fixed hocc
          rw [hfind] at hvp
          cases hvp
      · rintro ⟨vp, hvp, -⟩
        rw [hfind] at hvp
        cases hvp
  | some vp =>
    rw [entry_some hfind] at hro ⊢
    have hro' : vp.flags.readonly = false := hro
    simp only [hro', Bool.false_eq_true, if_false]
    generalize hst₁ : (if flags.nofunc then st else st.callFunc vp.func value) = st₁
    have htab : st₁.vartab = st.vartab := by
      rw [← hst₁]
      split_ifs <;> simp
    have hsame : SameRest st st₁ := by
      rw [← hst₁]
      split_ifs
      · exact ⟨rfl, rfl, rfl⟩
      · exact ⟨by simp, by simp, by simp⟩
    split_ifs with hun hfix
    · have hkept : VarOk value ({ flags with exported := flags.exported || st.aflag } |||
          (vp.flags &&& ~~~(vtextfixed ||| vstack ||| vnosave ||| vunset))) := by
        refine ⟨by simp [hbare], ?_⟩
        intro hu
        have hu : flags.unset = true := by simpa using hu
        simp only [unsets_eq, hu, Bool.true_and, Bool.not_and, Bool.not_not, Bool.or_eq_true] at hun
        rcases hun with (h | h) | h <;> simp [h]
      have hassign := h.replace htab hsame hfind ⟨value, _, vp.func⟩ hkept
        fun hs => by simp [hs]
      refine ⟨_, rfl, ?_, fun hs => ⟨_, findvar_store.trans (if_pos rfl), by simp [hs]⟩⟩
      rw [Bool.not_eq_true'] at hun
      rw [newEntry_kept hbare haflag (by rw [hun]; exact Bool.false_ne_true)]
      simpa [Var.entry, entryOf, hvalue, hro'] using hassign
    · have hun : { flags with exported := flags.exported || st.aflag : VFlags }.unsets := by
        simpa using hun
      have hfixed : VarOk value ({ flags with exported := flags.exported || st.aflag } |||
          (vp.flags &&& vstrfixed)) := ⟨by simp [hbare], by simp [hfix]⟩
      have hassign := h.replace htab hsame hfind ⟨value, _, vp.func⟩ hfixed
        fun _ => by simp [hfix]
      refine ⟨_, rfl, ?_, fun hs => ⟨_, findvar_store.trans (if_pos rfl), by simp [hs]⟩⟩
      rw [newEntry_unsets hbare hun]
      simp only [unsets_eq, Bool.and_eq_true, Bool.not_eq_true'] at hun
      obtain ⟨⟨⟨hu, he⟩, hr⟩, hs⟩ := hun
      simpa [Var.entry, entryOf, Entry.absent, hu, he, hr] using hassign
    · have hun : { flags with exported := flags.exported || st.aflag : VFlags }.unsets := by
        simpa using hun
      have hinv : st₁.Inv := h.same htab hsame.stack
      have hentry : st₁.entry = st.entry := by
        funext n
        rw [entry, entry, findvar, findvar, htab]
      have hnot : ¬ st.Fixed name := by
        rintro ⟨vp₂, hvp₂, hfix₂⟩
        obtain rfl := Option.some.inj (hfind.symm.trans hvp₂)
        exact hfix hfix₂
      refine ⟨_, rfl, ⟨⟨hsame.stack, hsame.aflag, hsame.lineno⟩, ?_, ?_, fun h => absurd h hnot⟩, ?_⟩
      · rw [newEntry_unsets hbare hun, entry_delete, hentry]
      · apply hinv.delete
        rw [hsame.stack]
        exact fun hocc => hnot (h.fixed hocc)
      · intro hs
        simp [hs] at hun

theorem setvareqVal_readonly (hro : (st.entry name).readonly) :
    setvareqVal name value flags st = .error (readonlyError name) := by
  unfold setvareqVal
  cases hfind : st.findvar name with
  | none => simp [entry_none hfind] at hro
  | some vp =>
    have hvp : vp.flags.readonly = true := by
      rwa [entry_some hfind] at hro
    simp [hvp]

theorem SameRest.trans {st'' : Vars} (h : SameRest st st') (h' : SameRest st' st'') :
    SameRest st st'' :=
  ⟨h'.stack.trans h.stack, h'.aflag.trans h.aflag, h'.lineno.trans h.lineno⟩

/-- `mklocal` first makes sure that the variable stays in the table. -/
theorem Inv.fix (h : st.Inv) (hfind : st.findvar name = some vp) :
    Assigned st (st.store name { vp with flags := vp.flags ||| (vstrfixed ||| vtextfixed) }) name
      (st.entry name) := by
  have hok := (h.var hfind).2
  have ha := h.replace rfl ⟨rfl, rfl, rfl⟩ hfind
    { vp with flags := vp.flags ||| (vstrfixed ||| vtextfixed) } ⟨by simp [hok.unset], by simp⟩
    (by simp)
  simpa [entry_some hfind, Var.entry, entryOf] using ha

end Vars

end Bootsh
