import Bootsh.Var.Assign

/-!
The variable store refines dynamic scoping, as long as no bare name is stored while
`-a` is on: `setvareq` would export it.
-/
namespace Bootsh

open VFlags Binding

/-- A bare name is not stored with `-a` on, unless it is exported anyway. -/
def Vars.BareOk (st : Vars) (name : Text) (flags : VFlags) : Prop :=
  flags.exported ∨ st.aflag = false ∨ (st.entry name).readonly ∨ ¬ isGoodName name

/-- No variable is removed with `-a` on when the list is undone. -/
def PopOk : List Localvar → Bool → Prop
  | [], _ => True
  | .options aflag :: l, _ => PopOk l aflag
  | .var _ _ flags :: l, aflag => (flags = vunset → aflag = false) ∧ PopOk l aflag

/-- What callers of the store see to, and that bare names are stored without `-a`. -/
def Vars.Careful (st : Vars) : VarOp → Prop
  | .setvar name none flags => st.BareOk (varName name) flags
  | .setvar _ (some _) flags => flags.unset = false
  | .setvareq s flags =>
    isGoodName (varName s) ∧ flags.unset = (varValue s).isNone ∧
      (varValue s = none → st.BareOk (varName s) flags)
  | .unset name => st.BareOk (varName name) zero
  | .readonlyArg name =>
    varValue name = none → st.findvar name = none → st.BareOk name vreadonly
  | .localArg name => name ≠ ['-'] → st.localvarStack ≠ [] →
    if varValue name = none then st.findvar name = none → st.BareOk name zero
    else isGoodName (varName name)
  | .prefixAssign s =>
    st.localvarStack ≠ [] ∧ isGoodName (varName s) ∧ varValue s ≠ none
  | .poplocalvars => PopOk (st.localvarStack.headD []) st.aflag
  | _ => True

instance (st : Vars) (name : Text) (flags : VFlags) : Decidable (st.BareOk name flags) :=
  inferInstanceAs (Decidable (_ ∨ _ ∨ _ ∨ _))

instance PopOk.decidable : ∀ (l : List Localvar) (aflag : Bool), Decidable (PopOk l aflag)
  | [], _ => isTrue trivial
  | .options aflag :: l, _ => PopOk.decidable l aflag
  | .var _ _ _ :: l, aflag =>
    have := PopOk.decidable l aflag
    inferInstanceAs (Decidable (_ ∧ _))

instance (st : Vars) : ∀ op, Decidable (st.Careful op)
  | .setvar name none flags => inferInstanceAs (Decidable (st.BareOk (varName name) flags))
  | .setvar _ (some _) flags => inferInstanceAs (Decidable (flags.unset = false))
  | .setvareq _ _ => inferInstanceAs (Decidable (_ ∧ _ ∧ (_ → _)))
  | .unset name => inferInstanceAs (Decidable (st.BareOk (varName name) zero))
  | .readonlyArg _ => inferInstanceAs (Decidable (_ → _ → _))
  | .localArg name => inferInstanceAs (Decidable (name ≠ ['-'] → st.localvarStack ≠ [] →
      if varValue name = none then st.findvar name = none → st.BareOk name zero
      else isGoodName (varName name)))
  | .prefixAssign _ => inferInstanceAs (Decidable (_ ∧ _ ∧ _))
  | .poplocalvars => inferInstanceAs (Decidable (PopOk _ _))
  | .exportArg _ | .pushlocalvars | .setAflag _ | .setLineno _ | .lookupvar _ => isTrue trivial

structure Rel (st : Vars) (sc : Scoped) : Prop where
  inv : st.Inv
  vars : Refines st.view sc.vars
  opts : Refines st.optView sc.opts
  lineno : st.lineno = sc.lineno

/-- The same error, and related stores. -/
structure RelResult (r : VarResult) (a : Option Text × Scoped) : Prop where
  error : r.1 = a.1
  rel : Rel r.2 a.2

namespace Rel

variable {st st' : Vars} {sc : Scoped} {name : Text} {value : Option Val} {flags : VFlags}

theorem entry (h : Rel st sc) (name : Text) : st.entry name = sc.entry name := h.vars.lookup name

theorem aflag (h : Rel st sc) : st.aflag = sc.aflag := h.opts.lookup ()

theorem assigned {e : Entry} (h : Rel st sc) (ha : st.Assigned st' name e) :
    Rel st' { sc with vars := sc.vars.assign name e } := by
  have hview : st'.view = st.view.assign name e := by
    rw [Vars.view, ha.entry, ha.stack]
    rfl
  have hopt : st'.optView = st.optView := by
    rw [Vars.optView, ha.aflag, ha.stack]
    rfl
  refine ⟨ha.inv, ?_, ?_, ha.lineno.trans h.lineno⟩
  · rw [hview]
    exact h.vars.assign name e
  · rw [hopt]
    exact h.opts

theorem setvareqVal (h : Rel st sc) (hgood : isGoodName name) (hbare : flags.unset = value.isNone)
    (hok : value = none → st.BareOk name flags) :
    RelResult (orRaise (Bootsh.setvareqVal name value flags st) st) (sc.assign name value flags) := by
  unfold Scoped.assign
  rw [← h.entry, ← h.aflag]
  cases hro : (st.entry name).readonly with
  | true =>
    rw [Vars.setvareqVal_readonly hro]
    exact ⟨rfl, h⟩
  | false =>
    have haflag : value = none → flags.exported ∨ st.aflag = false := by
      intro hnone
      rcases hok hnone with h | h | h | h
      · exact .inl h
      · exact .inr h
      · simp [hro] at h
      · exact absurd hgood h
    obtain ⟨st', hst', ha, -⟩ := Vars.setvareqVal_spec h.inv hgood hbare haflag hro
    rw [hst']
    exact ⟨rfl, h.assigned ha⟩

theorem newEntry_flags {e : Entry} {flags' : VFlags} {aflag : Bool}
    (he : flags'.exported = flags.exported) (hr : flags'.readonly = flags.readonly)
    (hs : flags'.strfixed = flags.strfixed) :
    Scoped.newEntry e value flags' aflag = Scoped.newEntry e value flags aflag := by
  rw [Scoped.newEntry, Scoped.newEntry, he, hr, hs]

theorem setvar {val : Option Text} (h : Rel st sc) (hflags : val.isSome → flags.unset = false)
    (hok : val = none → st.BareOk (varName name) flags) :
    RelResult (orRaise (Bootsh.setvar name val flags st) st)
      (sc.set (varName name) (val.map .text) flags) := by
  unfold Bootsh.setvar Scoped.set
  cases hgood : isGoodName (varName name) with
  | false =>
    simp only [Bool.not_false, if_true]
    exact ⟨rfl, h⟩
  | true =>
    simp only [Bool.not_true, Bool.false_eq_true, if_false]
    have hassign : sc.assign (varName name) (val.map .text)
        ((if val.isNone then flags ||| vunset else flags) ||| vnosave) =
          sc.assign (varName name) (val.map .text) flags := by
      unfold Scoped.assign
      rw [newEntry_flags] <;> cases val <;> simp
    rw [← hassign]
    apply h.setvareqVal hgood
    · cases val with
      | none => simp
      | some v => simpa using hflags rfl
    · intro hnone
      have hnone : val = none := by simpa using hnone
      simpa [Vars.BareOk, hnone] using hok hnone

theorem setvareq (h : Rel st sc) (hgood : isGoodName (varName name))
    (hbare : flags.unset = (varValue name).isNone)
    (hok : varValue name = none → st.BareOk (varName name) flags) :
    RelResult (orRaise (Bootsh.setvareq name flags st) st)
      (sc.set (varName name) ((varValue name).map .text) flags) := by
  unfold Bootsh.setvareq Scoped.set
  rw [hgood, Bool.not_true, if_neg Bool.false_ne_true]
  exact h.setvareqVal hgood (by simpa using hbare) fun hnone => hok (by simpa using hnone)

/-- A text without `=` is its own name. -/
theorem varName_of_varValue {s : Text} (h : varValue s = none) : varName s = s := by
  unfold varValue at h
  have happend := @List.takeWhile_append_dropWhile _ (· ≠ '=') s
  cases hdrop : s.dropWhile (· ≠ '=') with
  | nil => rwa [hdrop, List.append_nil] at happend
  | cons c cs =>
    rw [hdrop] at h
    cases h

theorem exportArg (h : Rel st sc) (hunset : flags.unset = false)
    (hflag : flags.exported ∨ flags.readonly)
    (hok : varValue name = none → st.findvar name = none → st.BareOk name flags) :
    RelResult (orRaise (Bootsh.exportArg flags name st) st) (sc.mark flags name) := by
  unfold Bootsh.exportArg Scoped.mark
  cases hvalue : varValue name with
  | some v => exact @setvar _ _ name flags (some v) h (fun _ => hunset) fun h => by cases h
  | none =>
    have hname := varName_of_varValue hvalue
    dsimp only
    cases hfind : st.findvar name with
    | none =>
      have hentry : sc.entry name = .absent := (h.entry name).symm.trans (Vars.entry_none hfind)
      have hnew : Scoped.newEntry .absent none flags sc.aflag =
          ⟨none, flags.exported, flags.readonly⟩ := by
        rcases hflag with hf | hf <;> simp [Scoped.newEntry, hf, Entry.absent]
      have hset := @setvar _ _ name flags none h (fun hval => by cases hval)
        (by rw [hname]; exact fun _ => hok hvalue hfind)
      rw [hname] at hset
      simpa [Scoped.set, Scoped.assign, hentry, hnew] using hset
    | some vp =>
      obtain ⟨hgood, hvp⟩ := h.inv.var hfind
      rw [hgood, Bool.not_true, if_neg Bool.false_ne_true, ← h.entry, Vars.entry_some hfind]
      have ha := h.inv.replace rfl ⟨rfl, rfl, rfl⟩ hfind { vp with flags := vp.flags ||| flags }
        ⟨by simp [hvp.unset, hunset], fun _ => by rcases hflag with hf | hf <;> simp [hf]⟩
        fun hs => by simp [hs]
      refine ⟨rfl, ?_⟩
      simpa [Var.entry, entryOf, hunset] using h.assigned ha

/-! ### Local variables -/

/-- A variable was made local, and then perhaps assigned. -/
theorem linked {l : List Localvar} {ls : List (List Localvar)} {vars : Deep Text Entry}
    {old : Option Val} (h : Rel st sc) (hgood : isGoodName name)
    (hstack : st.localvarStack = l :: ls) (hold : entryOf old flags = st.entry name)
    (hlvp : flags = vunset ∧ old = none ∨ VarOk old flags)
    (hfixed : st.Fixed name → flags.strfixed) (hinv : st'.Inv) (hsame : st.SameRest st')
    (hfixed' : st'.Fixed name)
    (hvars : Refines ⟨st'.entry, (st.view.save name).logs⟩ vars) :
    Rel (linkLocal (.var name old flags) st') { sc with vars } := by
  have hstack' : st'.localvarStack = l :: ls := hsame.stack.trans hstack
  have hlink : linkLocal (.var name old flags) st' =
      { st' with localvarStack := (.var name old flags :: l) :: ls } := by
    rw [linkLocal, hstack']
  rw [hlink]
  refine ⟨⟨hinv.var, ?_, ?_⟩, ?_, ?_, hsame.lineno.trans h.lineno⟩
  · refine ⟨hgood, hlvp, ?_, ?_⟩
    · intro hocc
      apply hfixed
      apply h.inv.fixed
      rwa [hstack]
    · have hpending := hinv.pending
      rwa [hstack'] at hpending
  · rintro n ⟨value, flags', hmem⟩
    rcases List.mem_cons.1 hmem with heq | hmem
    · obtain ⟨rfl, -, -⟩ := Localvar.var.inj heq
      exact hfixed'
    · refine hinv.fixed ⟨value, flags', ?_⟩
      rwa [hstack']
  · have hlogs : (st.view.save name).logs =
        List.map (List.filterMap Localvar.log) ((.var name old flags :: l) :: ls) := by
      simp [Vars.view, hstack, Shallow.save, Localvar.log, hold]
    rw [hlogs] at hvars
    exact hvars
  · have hopt : Vars.optView { st' with localvarStack := (.var name old flags :: l) :: ls } =
        st.optView := by
      simp [Vars.optView, hstack, List.filterMap_cons, Localvar.optLog, hsame.aflag]
    rw [hopt]
    exact h.opts

/-- The entry that `mklocal` finds is logged, whatever is then assigned. -/
theorem save_assign (h : Rel st sc) {e : Entry} (ha : st'.entry = Function.update st.entry name e) :
    Refines ⟨st'.entry, (st.view.save name).logs⟩ ((sc.vars.declare name).assign name e) := by
  have hsave := (h.vars.save name).assign name e
  have hview : (st.view.save name).assign name e = ⟨st'.entry, (st.view.save name).logs⟩ := by
    rw [ha]
    unfold Shallow.assign Shallow.save
    cases st.view.logs <;> rfl
  rwa [hview] at hsave

theorem save_only (h : Rel st sc) :
    Refines ⟨st.entry, (st.view.save name).logs⟩ (sc.vars.declare name) := by
  have hsave := h.vars.save name
  have hview : st.view.save name = ⟨st.entry, (st.view.save name).logs⟩ := by
    unfold Shallow.save
    cases st.view.logs <;> rfl
  rwa [hview] at hsave

theorem declare_entry (h : Rel st sc) (name' : Text) :
    (sc.vars.declare name).lookup name' = st.entry name' := by
  rw [← (h.vars.save name).lookup]
  unfold Shallow.save
  split <;> rfl

/-- An assignment to a variable that has just been made local. -/
theorem declare_some (h : Rel st sc) {v : Text} (hname : name ≠ ['-'])
    (hgood : isGoodName (varName name)) (hvalue : varValue name = some v) :
    sc.declare name flags =
      if (st.entry (varName name)).readonly then (some (readonlyError (varName name)), sc)
      else (none, { sc with
        vars := (sc.vars.declare (varName name)).assign (varName name)
          (Scoped.newEntry (st.entry (varName name)) (some (.text v)) flags st.aflag) }) := by
  have hentry := @declare_entry _ _ (varName name) h (varName name)
  unfold Scoped.declare Scoped.assign Scoped.entry
  rw [if_neg hname, hgood, Bool.not_true, if_neg Bool.false_ne_true, hvalue]
  dsimp only
  rw [hentry]
  cases hro : (st.entry (varName name)).readonly
  · simp [h.aflag, Scoped.aflag]
  · simp

theorem newEntry_some {e : Entry} {v : Val} {aflag : Bool} :
    Scoped.newEntry e (some v) flags aflag =
      ⟨some v, e.exported || flags.exported || aflag, flags.readonly⟩ := by
  simp [Scoped.newEntry]

/-- A variable that does not exist is made local without a value. -/
theorem mklocal_new (h : Rel st sc) (hname : name ≠ ['-']) (hstack : st.localvarStack ≠ [])
    (hvalue : varValue name = none) (hfind : st.findvar name = none)
    (hok : st.BareOk name zero) :
    RelResult (Bootsh.mklocal name zero st) (sc.declare name zero) := by
  obtain ⟨l, ls, hstack⟩ := List.exists_cons_of_ne_nil hstack
  have habsent := Vars.entry_none hfind
  have hvar := varName_of_varValue hvalue
  unfold Bootsh.mklocal Scoped.declare Bootsh.setvar
  rw [if_neg hname, if_neg hname, hvalue, hvar, hfind]
  dsimp only
  cases hgood : isGoodName name with
  | false => exact ⟨rfl, h⟩
  | true =>
    have haflag : st.aflag = false := by
      rcases hok with h | h | h | h
      · cases h
      · exact h
      · simp [habsent] at h
      · exact absurd hgood h
    obtain ⟨st', hst', ha, hfix⟩ := @Vars.setvareqVal_spec st name none
      (vstrfixed ||| zero ||| vunset ||| vnosave) h.inv hgood (by simp) (fun _ => .inr haflag)
      (by rw [habsent]; rfl)
    have hentry : st'.entry = st.entry := by
      rw [ha.entry, habsent, ← habsent]
      simp [Scoped.newEntry, Function.update_eq_self_iff, habsent, Entry.absent]
    simp only [Option.isSome_none, Bool.false_eq_true, if_false, Bool.not_true, Option.isNone_none,
      if_true, Option.map_none, hst']
    refine ⟨rfl, h.linked hgood hstack habsent.symm (.inl ⟨rfl, rfl⟩) ?_ ha.inv ha.toSameRest
      (hfix (by simp)) ?_⟩
    · rintro ⟨vp, hvp, -⟩
      rw [hfind] at hvp
      cases hvp
    · rw [hentry]
      exact h.save_only

/-- A variable that exists is made local without a value. -/
theorem mklocal_old {vp : Var} (h : Rel st sc) (hname : name ≠ ['-'])
    (hstack : st.localvarStack ≠ []) (hvalue : varValue name = none)
    (hfind : st.findvar name = some vp) :
    RelResult (Bootsh.mklocal name zero st) (sc.declare name zero) := by
  obtain ⟨l, ls, hstack⟩ := List.exists_cons_of_ne_nil hstack
  obtain ⟨hgood, hvp⟩ := h.inv.var hfind
  have hvar := varName_of_varValue hvalue
  have hfix := h.inv.fix hfind
  have hentry : (st.store name { vp with flags := vp.flags ||| (vstrfixed ||| vtextfixed) }).entry =
      st.entry := hfix.entry.trans (Function.update_eq_self ..)
  unfold Bootsh.mklocal Scoped.declare
  rw [if_neg hname, if_neg hname, hvalue, hvar, hfind, hgood]
  refine ⟨rfl, h.linked hgood hstack (Vars.entry_some hfind).symm (.inr hvp) ?_ hfix.inv
    hfix.toSameRest ⟨_, Vars.findvar_store.trans (if_pos rfl), by simp⟩ ?_⟩
  · rintro ⟨vp', hvp', hs⟩
    obtain rfl := Option.some.inj (hfind.symm.trans hvp')
    exact hs
  · rw [hentry]
    exact h.save_only

/-- A variable is made local with a value. -/
theorem mklocal_assign {v : Text} (h : Rel st sc) (hname : name ≠ ['-'])
    (hstack : st.localvarStack ≠ []) (hunset : flags.unset = false)
    (hgood : isGoodName (varName name)) (hvalue : varValue name = some v) :
    RelResult (Bootsh.mklocal name flags st) (sc.declare name flags) := by
  obtain ⟨l, ls, hstack⟩ := List.exists_cons_of_ne_nil hstack
  rw [h.declare_some hname hgood hvalue]
  unfold Bootsh.mklocal Bootsh.setvareq
  rw [if_neg hname, hvalue]
  dsimp only [Option.isSome_some, Option.map_some]
  cases hfind : st.findvar (varName name) with
  | none =>
    have habsent := Vars.entry_none hfind
    obtain ⟨st', hst', ha, hfix⟩ := @Vars.setvareqVal_spec st (varName name) (some (.text v))
      (vstrfixed ||| flags) h.inv hgood (by simp [hunset]) nofun (by rw [habsent]; rfl)
    have hnew := h.save_assign ha.entry
    rw [newEntry_some] at hnew
    simp only [if_true, hst', habsent, Entry.absent_readonly, Bool.false_eq_true, if_false,
      newEntry_some]
    refine ⟨rfl, h.linked hgood hstack habsent.symm (.inl ⟨rfl, rfl⟩) ?_ ha.inv ha.toSameRest
      (hfix (by simp)) ?_⟩
    · rintro ⟨vp, hvp, -⟩
      rw [hfind] at hvp
      cases hvp
    · simpa [habsent] using hnew
  | some vp =>
    have hvp := (h.inv.var hfind).2
    have hfix := h.inv.fix hfind
    have hentry : (st.store (varName name)
        { vp with flags := vp.flags ||| (vstrfixed ||| vtextfixed) }).entry = st.entry :=
      hfix.entry.trans (Function.update_eq_self ..)
    have hrel : Rel (st.store (varName name)
        { vp with flags := vp.flags ||| (vstrfixed ||| vtextfixed) }) sc := by
      refine ⟨hfix.inv, ?_, h.opts, h.lineno⟩
      rw [Vars.view, hentry]
      exact h.vars
    dsimp only [if_true]
    cases hro : (st.entry (varName name)).readonly with
    | true =>
      rw [Vars.setvareqVal_readonly (by rw [hentry]; exact hro)]
      exact ⟨rfl, hrel⟩
    | false =>
      obtain ⟨st', hst', ha, -⟩ := @Vars.setvareqVal_spec _ (varName name) (some (.text v)) flags
        hfix.inv hgood (by simp [hunset]) nofun (by rw [hentry]; exact hro)
      rw [hst']
      refine ⟨rfl, h.linked hgood hstack (Vars.entry_some hfind).symm (.inr hvp) ?_ ha.inv
        (hfix.toSameRest.trans ha.toSameRest)
        (ha.fixed ⟨_, Vars.findvar_store.trans (if_pos rfl), by simp⟩) ?_⟩
      · rintro ⟨vp', hvp', hs⟩
        obtain rfl := Option.some.inj (hfind.symm.trans hvp')
        exact hs
      · apply h.save_assign
        rw [ha.entry, hentry]
        rfl

theorem mklocal (h : Rel st sc) (hname : name ≠ ['-']) (hstack : st.localvarStack ≠ [])
    (hunset : flags.unset = false)
    (hok : if varValue name = none then st.findvar name = none → st.BareOk name zero
      else isGoodName (varName name))
    (hflags : varValue name = none → flags = zero) :
    RelResult (Bootsh.mklocal name flags st) (sc.declare name flags) := by
  cases hvalue : varValue name with
  | none =>
    rw [if_pos hvalue] at hok
    rw [hflags hvalue]
    cases hfind : st.findvar name with
    | none => exact h.mklocal_new hname hstack hvalue hfind (hok hfind)
    | some vp => exact h.mklocal_old hname hstack hvalue hfind
  | some v =>
    rw [if_neg (by simp [hvalue])] at hok
    exact h.mklocal_assign hname hstack hunset hok hvalue

end Rel

end Bootsh
