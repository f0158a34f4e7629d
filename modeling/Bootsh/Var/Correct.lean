import Bootsh.Var.Report

/-!
Every careful run of the variable store reports what dynamic scoping prescribes.
-/
namespace Bootsh

open VFlags Binding

/-! ### The initial store -/

theorem Vars.Inv.importVar {st : Vars} {s : Text} {flags : VFlags} (h : st.Inv)
    (hgood : isGoodName (varName s)) (hvalue : (varValue s).isSome) (hflags : flags.unset = false)
    (hstack : st.localvarStack = []) :
    (importVar s flags st).Inv ∧ (importVar s flags st).localvarStack = [] := by
  unfold Bootsh.importVar setvareq
  cases hro : (st.entry (varName s)).readonly with
  | true =>
    rw [Vars.setvareqVal_readonly hro]
    exact ⟨h, hstack⟩
  | false =>
    obtain ⟨v, hv⟩ := Option.isSome_iff_exists.1 hvalue
    obtain ⟨st', hst', ha, -⟩ := @Vars.setvareqVal_spec st (varName s) ((varValue s).map .text) flags h
      hgood (by simp [hflags, hv]) (by simp [hv]) hro
    rw [hst']
    exact ⟨ha.inv, ha.stack.trans hstack⟩

theorem initvar_inv (root : Bool) : (initvar root).Inv := by
  have hput : ∀ l : List (Text × Var),
      (∀ p ∈ l, isGoodName p.1 ∧ VarOk p.2.value p.2.flags) → ∀ name vp,
      HashTable.find (l.foldr (fun p t => t.put p.1 p.2) HashTable.empty : HashTable _ _ _ hashvar)
        name = some vp → isGoodName name ∧ VarOk vp.value vp.flags := by
    intro l hl
    induction l with
    | nil =>
      intro name vp hfind
      cases hfind
    | cons p l ih =>
      intro name vp hfind
      rw [List.foldr_cons, HashTable.find_put] at hfind
      split_ifs at hfind with hname
      · obtain rfl := Option.some.inj hfind
        rw [hname]
        exact hl p (by simp)
      · exact ih (fun q hq => hl q (by simp [hq])) name vp hfind
  refine ⟨?_, trivial, ?_⟩
  · intro name vp hfind
    refine hput _ ?_ name vp hfind
    have hok : ∀ p ∈ varinit root, isGoodName p.1 ∧ p.2.flags.unset = p.2.value.isNone ∧
        p.2.flags.strfixed = true := by
      cases root <;> decide
    intro p hp
    obtain ⟨hgood, hunset, hfixed⟩ := hok p hp
    exact ⟨hgood, hunset, fun _ => .inr (.inr hfixed)⟩
  · rintro name ⟨value, flags, hmem⟩
    cases hmem

theorem initVars_inv (root : Bool) (environ : List Text) (ppid : Text) :
    (initVars root environ ppid).Inv ∧ (initVars root environ ppid).localvarStack = [] := by
  have hfold : ∀ st : Vars, st.Inv ∧ st.localvarStack = [] →
      (environ.foldl importEnv st).Inv ∧ (environ.foldl importEnv st).localvarStack = [] := by
    induction environ with
    | nil => exact fun st h => h
    | cons s environ ih =>
      intro st h
      rw [List.foldl_cons, importEnv]
      split_ifs with hs
      · rw [Bool.and_eq_true] at hs
        exact ih _ (h.1.importVar hs.1 hs.2 rfl h.2)
      · exact ih st h
  obtain ⟨h₁, h₂⟩ := hfold _ ⟨initvar_inv root, rfl⟩
  obtain ⟨h₁, h₂⟩ := @Vars.Inv.importVar _ defifsvar vtextfixed h₁ (by decide) (by decide) rfl h₂
  obtain ⟨h₁, h₂⟩ := @Vars.Inv.importVar _ defoptindvar vtextfixed h₁ (by decide) (by decide) rfl h₂
  exact h₁.importVar rfl rfl rfl h₂

/-- The abstract store that holds what `st` does. -/
def Scoped.ofVars (st : Vars) : Scoped := ⟨⟨[], st.entry⟩, ⟨[], fun _ => st.aflag⟩, st.lineno⟩

theorem Rel.ofVars {st : Vars} (h : st.Inv) (hstack : st.localvarStack = []) :
    Rel st (.ofVars st) := by
  refine ⟨h, ?_, ?_, rfl⟩
  · unfold Refines Vars.view
    rw [hstack]
    rfl
  · unfold Refines Vars.optView
    rw [hstack]
    rfl

/-! ### Readonly and unset variables -/

/-- The value and the flags that an operation assigns to a variable. -/
def VarOp.assigns (name : Text) : VarOp → Option (Option Val × VFlags)
  | .setvar n val flags => if varName n = name then some (val.map .text, flags) else none
  | .setvareq s flags => if varName s = name then some ((varValue s).map .text, flags) else none
  | .unset n => if varName n = name then some (none, zero) else none
  | .exportArg s => assignsValue s vexport
  | .readonlyArg s => assignsValue s vreadonly
  | .localArg s => assignsValue s zero
  | .prefixAssign s => assignsValue s vexport
  | _ => none
where
  assignsValue (s : Text) (flags : VFlags) : Option (Option Val × VFlags) :=
    if varName s = name then (varValue s).map fun v => (some (.text v), flags) else none

/-- The attributes that an operation gives a variable without assigning to it. -/
def VarOp.marks (name : Text) : VarOp → Option VFlags
  | .exportArg s => if s = name then some vexport else none
  | .readonlyArg s => if s = name then some vreadonly else none
  | _ => none

namespace Scoped

variable {sc : Scoped} {name n : Text} {value : Option Val} {flags : VFlags}

theorem assign_entry : (sc.assign n value flags).2.entry name =
    if name = n ∧ (sc.entry n).readonly = false then newEntry (sc.entry n) value flags sc.aflag
    else sc.entry name := by
  unfold assign
  cases hro : (sc.entry n).readonly with
  | true => simp
  | false => simp [entry, Deep.lookup_assign]

/-- What an operation other than a return does to the entry of `name`: nothing, or an
assignment of `value`, or it adds the attributes `flags`. -/
inductive Changes (sc : Scoped) (name : Text) : VarOp → Entry → Prop
  | same {op} : Changes sc name op (sc.entry name)
  | assign {op} (value : Option Val) (flags : VFlags) : op.assigns name = some (value, flags) →
      (sc.entry name).readonly = false →
      Changes sc name op (newEntry (sc.entry name) value flags sc.aflag)
  | mark {op} (flags : VFlags) : op.marks name = some flags →
      Changes sc name op { sc.entry name with
        exported := (sc.entry name).exported || flags.exported
        readonly := (sc.entry name).readonly || flags.readonly }

variable {op : VarOp}

theorem changes_assign (hop : n = name → op.assigns name = some (value, flags)) :
    Changes sc name op ((sc.assign n value flags).2.entry name) := by
  rw [assign_entry]
  split_ifs with h
  · obtain ⟨rfl, hro⟩ := h
    exact .assign value flags (hop rfl) hro
  · exact .same

theorem Changes.congr {sc' : Scoped} {e : Entry} (h : Changes sc' name op e)
    (hentry : sc'.entry name = sc.entry name) (haflag : sc'.aflag = sc.aflag) :
    Changes sc name op e := by
  cases h with
  | same =>
    rw [hentry]
    exact .same
  | assign value flags hop hro =>
    rw [hentry, haflag]
    rw [hentry] at hro
    exact .assign value flags hop hro
  | mark flags hop =>
    rw [hentry]
    exact .mark flags hop

theorem changes_set (hop : n = name → op.assigns name = some (value, flags)) :
    Changes sc name op ((sc.set n value flags).2.entry name) := by
  unfold set
  split_ifs
  · exact .same
  · exact changes_assign hop

theorem changes_mark {s : Text} (hop : varName s = name → op.assigns name =
      (varValue s).map fun v => (some (.text v), flags))
    (hmark : s = name → op.marks name = some flags) :
    Changes sc name op ((sc.mark flags s).2.entry name) := by
  unfold mark
  cases hvalue : varValue s with
  | some v =>
    rw [hvalue] at hop
    exact changes_set hop
  | none =>
    dsimp only
    split_ifs
    · exact .same
    · rw [entry, Deep.lookup_assign]
      split_ifs with hname
      · subst hname
        exact .mark flags (hmark rfl)
      · exact .same

theorem changes_declare {s : Text} (hop : varName s = name → op.assigns name =
      (varValue s).map fun v => (some (.text v), flags)) :
    Changes sc name op ((sc.declare s flags).2.entry name) := by
  have hlocal : ({ sc with vars := sc.vars.declare (varName s) } : Scoped).entry name =
      sc.entry name ∧ ({ sc with vars := sc.vars.declare (varName s) } : Scoped).aflag = sc.aflag :=
    ⟨Deep.lookup_declare sc.vars, rfl⟩
  unfold declare
  split_ifs
  · exact .same
  · exact .same
  · cases hvalue : varValue s with
    | none =>
      dsimp only
      rw [hlocal.1]
      exact .same
    | some v =>
      rw [hvalue] at hop
      have hassign := (@changes_assign { sc with vars := sc.vars.declare (varName s) } name (varName s)
        (some (.text v)) flags op hop).congr hlocal.1 hlocal.2
      dsimp only
      split
      · exact .same
      · next heq =>
        rw [heq] at hassign
        exact hassign

/-- An operation other than a return. -/
theorem step_changes (hpop : op ≠ .poplocalvars) : Changes sc name op ((sc.step op).2.entry name) := by
  cases op with
  | setvar n val flags => exact changes_set fun h => if_pos h
  | setvareq s flags => exact changes_set fun h => if_pos h
  | unset n => exact changes_set fun h => if_pos h
  | exportArg s => exact changes_mark (fun h => if_pos h) fun h => if_pos h
  | readonlyArg s => exact changes_mark (fun h => if_pos h) fun h => if_pos h
  | localArg s =>
    unfold step
    dsimp only
    split_ifs
    · exact .same
    · exact changes_declare fun h => if_pos h
  | prefixAssign s => exact changes_declare fun h => if_pos h
  | poplocalvars => exact absurd rfl hpop
  | pushlocalvars => exact .same
  | setAflag b => exact .same
  | setLineno n => exact .same
  | lookupvar n => exact .same

end Scoped

/-! ### Runs -/

open Run

/-- The operation may give `name` the export attribute. -/
def Vars.Exports (name : Text) (st : Vars) (op : VarOp) : Prop :=
  op = .poplocalvars ∨
    (∃ value flags, op.assigns name = some (value, flags) ∧
      (flags.exported ∨ value.isSome ∧ st.aflag)) ∨
    ∃ flags, op.marks name = some flags ∧ flags.exported

variable {st : Vars} {sc : Scoped} {name : Text} {op : VarOp}

theorem Rel.run_rel {ops : List VarOp} (h : Rel st sc) (hops : Along Vars.step Vars.Careful st ops) :
    (run Vars.step st ops).1 = (run Scoped.step sc ops).1 ∧
      Rel (run Vars.step st ops).2 (run Scoped.step sc ops).2 :=
  run_simulates (fun _ _ op hrel hok => ⟨(hrel.step op hok).error, (hrel.step op hok).rel⟩) h hops

theorem Rel.reports (h : Rel st sc) : Reports st sc :=
  ⟨h.lookup, st.vartab.nodup_entries, fun hline _ _ hmask => h.list hline hmask⟩

/-- A readonly variable keeps its value until the function returns. -/
theorem Rel.readonly_step (h : Rel st sc) (hok : st.Careful op) (hpop : op ≠ .poplocalvars)
    (hro : (st.entry name).readonly) :
    ((st.step op).2.entry name).value = (st.entry name).value ∧
      ((st.step op).2.entry name).readonly := by
  have hstep := (h.step op hok).rel
  rw [hstep.entry, h.entry]
  rw [h.entry] at hro
  generalize he : (sc.step op).2.entry name = e
  have hchanges := he ▸ @Scoped.step_changes sc name op hpop
  cases hchanges with
  | same => exact ⟨rfl, hro⟩
  | assign value flags hop hro' =>
    rw [hro] at hro'
    cases hro'
  | mark flags hop => exact ⟨rfl, by simp [hro]⟩

theorem Rel.unexported_step (h : Rel st sc) (hnot : ¬ st.Exports name op)
    (hexp : (sc.entry name).exported = false) : ((sc.step op).2.entry name).exported = false := by
  have hpop : op ≠ .poplocalvars := fun hpop => hnot (.inl hpop)
  generalize he : (sc.step op).2.entry name = e
  have hchanges := he ▸ @Scoped.step_changes sc name op hpop
  cases hchanges with
  | same => exact hexp
  | assign value flags hop hro =>
    have hflags : flags.exported = false := by
      by_contra hf
      exact hnot (.inr (.inl ⟨value, flags, hop, .inl (by simpa using hf)⟩))
    have haflag : (value.isSome && sc.aflag) = false := by
      by_contra hf
      rw [Bool.not_eq_false, Bool.and_eq_true, ← h.aflag] at hf
      exact hnot (.inr (.inl ⟨value, flags, hop, .inr hf⟩))
    unfold Scoped.newEntry
    split_ifs
    · rfl
    · simp only [hexp, hflags, haflag, Bool.or_false]
  | mark flags hop =>
    have hflags : flags.exported = false := by
      by_contra hf
      exact hnot (.inr (.inr ⟨flags, hop, by simpa using hf⟩))
    simp [hexp, hflags]

theorem Rel.unexported_run {ops : List VarOp} (h : Rel st sc)
    (hops : Along Vars.step (fun st op => st.Careful op ∧ ¬ st.Exports name op) st ops)
    (hexp : (sc.entry name).exported = false) :
    ((run Vars.step st ops).2.entry name).exported = false := by
  induction ops generalizing st sc with
  | nil => exact (congrArg Entry.exported (h.entry name)).trans hexp
  | cons op ops ih =>
    obtain ⟨⟨hok, hnot⟩, hops⟩ := hops
    exact ih (h.step op hok).rel hops (h.unexported_step hnot hexp)

/-- A variable that has been unset is not exported until something exports it. -/
theorem Rel.unset_run {ops : List VarOp} (h : Rel st sc) (hok : st.Careful (.unset name))
    (hunset : (st.step (.unset name)).1 = none)
    (hops : Along Vars.step (fun st op => st.Careful op ∧ ¬ st.Exports (varName name) op)
      (st.step (.unset name)).2 ops) :
    ((run Vars.step (st.step (.unset name)).2 ops).2.entry (varName name)).exported = false := by
  have hstep := h.step (.unset name) hok
  rw [hstep.error] at hunset
  refine hstep.rel.unexported_run hops ?_
  unfold Scoped.step Scoped.set at hunset ⊢
  dsimp only at hunset ⊢
  split_ifs at hunset ⊢
  unfold Scoped.assign at hunset ⊢
  split_ifs at hunset ⊢
  simp [Scoped.entry, Deep.lookup_assign, Scoped.newEntry, zero]

/-- What holds in every state of a careful run. -/
structure Refined (st : Vars) (sc : Scoped) : Prop where
  reports : Reports st sc
  readonly : ∀ op name, st.Careful op → op ≠ .poplocalvars → (st.entry name).readonly →
    ((st.step op).2.entry name).value = (st.entry name).value ∧
      ((st.step op).2.entry name).readonly
  unset : ∀ name ops, st.Careful (.unset name) → (st.step (.unset name)).1 = none →
    Along Vars.step (fun st op => st.Careful op ∧ ¬ st.Exports (varName name) op)
      (st.step (.unset name)).2 ops →
    ((run Vars.step (st.step (.unset name)).2 ops).2.entry (varName name)).exported = false

/-- A function with a local variable, called with another one readonly. -/
def localRun : List VarOp :=
  [.setvar "x".toList (some "1".toList) zero, .readonlyArg "y=2".toList, .pushlocalvars,
    .localArg "x=3".toList, .setvar "y".toList (some "4".toList) zero, .poplocalvars,
    .lookupvar "LINENO".toList]

/-- `set -a; unset x; set +a; x=1` -/
def unsetRun : List VarOp :=
  [.setAflag true, .unset "x".toList, .setAflag false, .setvareq "x=1".toList zero,
    .lookupvar "LINENO".toList]

end Bootsh
