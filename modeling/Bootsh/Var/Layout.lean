import Bootsh.Var.Accessor
import Bootsh.Var.Plain
import Bootsh.Var.Refine

/-!
The macros agree with `lookupvar` as long as the texts of unset variables end in two NULs.
-/
namespace Bootsh

open VFlags

/-! ### What the operations do to the variables -/

section
variable {rest : Text → Char} {name s : Text} {val : Option Text} {flags flag : VFlags} {m : Memory}

theorem setvarM_fst : (setvarM rest name val flags m).map Prod.fst = setvar name val flags m.1 := by
  unfold setvarM
  cases setvar name val flags m.1 <;> rfl

theorem setvareqM_fst : (setvareqM s flags m).map Prod.fst = setvareq s flags m.1 := by
  unfold setvareqM
  cases setvareq s flags m.1 <;> rfl

theorem exportArgM_fst : (exportArgM rest flag name m).map Prod.fst = exportArg flag name m.1 := by
  unfold exportArgM exportArg
  cases varValue name with
  | some v => exact setvarM_fst
  | none =>
    cases m.1.findvar name with
    | some vp => rfl
    | none => exact setvarM_fst

theorem orRaiseM_fst {r : Except Text Memory} {r' : Except Text Vars} (h : r.map Prod.fst = r') :
    (orRaiseM r m).1 = (orRaise r' m.1).1 ∧ (orRaiseM r m).2.1 = (orRaise r' m.1).2 := by
  subst h
  cases r <;> exact ⟨rfl, rfl⟩

theorem mklocalM_fst : (mklocalM rest name flags m).1 = (mklocal name flags m.1).1 ∧
    (mklocalM rest name flags m).2.1 = (mklocal name flags m.1).2 := by
  unfold mklocalM mklocal
  split
  · exact ⟨rfl, rfl⟩
  · cases m.1.findvar (varName name) with
    | none =>
      dsimp only
      have hset : (if (varValue name).isSome then setvareqM name (vstrfixed ||| flags) m
          else setvarM rest name none (vstrfixed ||| flags) m).map Prod.fst =
          if (varValue name).isSome then setvareq name (vstrfixed ||| flags) m.1
          else setvar name none (vstrfixed ||| flags) m.1 := by
        split
        · exact setvareqM_fst
        · exact setvarM_fst
      rw [← hset]
      generalize (if (varValue name).isSome then setvareqM name (vstrfixed ||| flags) m
        else setvarM rest name none (vstrfixed ||| flags) m) = r
      cases r <;> exact ⟨rfl, rfl⟩
    | some vp =>
      dsimp only
      split
      · rw [← @setvareqM_fst name flags (m.1.store (varName name)
          { vp with flags := vp.flags ||| (vstrfixed ||| vtextfixed) }, m.2)]
        generalize setvareqM name flags (m.1.store (varName name)
          { vp with flags := vp.flags ||| (vstrfixed ||| vtextfixed) }, m.2) = r
        cases r <;> exact ⟨rfl, rfl⟩
      · exact ⟨rfl, rfl⟩

theorem poplocalvarM_fst {lvp : Localvar} {block : Text} :
    (poplocalvarM rest lvp block m).map Prod.fst = poplocalvar lvp m.1 := by
  cases lvp with
  | options aflag => rfl
  | var name value flags =>
    unfold poplocalvarM poplocalvar
    dsimp only
    cases m.1.findvar name with
    | none => rfl
    | some vp =>
      dsimp only
      split
      · exact setvarM_fst
      · rfl

theorem poplocalvarListM_fst {l : List Localvar} {blocks : List Text} :
    (poplocalvarListM rest l blocks m).1 = (poplocalvarList l m.1).1 ∧
      (poplocalvarListM rest l blocks m).2.1 = (poplocalvarList l m.1).2 := by
  induction l generalizing m blocks with
  | nil => exact ⟨rfl, rfl⟩
  | cons lvp next ih =>
    rw [poplocalvarListM, poplocalvarList, ← @poplocalvarM_fst rest m lvp (blocks.headD [])]
    cases poplocalvarM rest lvp (blocks.headD []) m with
    | error msg => exact ⟨rfl, rfl⟩
    | ok m' => exact ih

theorem Memory.step_fst (m : Memory) (op : VarOp) (rest : Text → Char) :
    (m.step (op, rest)).1 = (m.1.step op).1 ∧ (m.step (op, rest)).2.1 = (m.1.step op).2 := by
  cases op with
  | setvar name val flags => exact orRaiseM_fst setvarM_fst
  | setvareq s flags => exact orRaiseM_fst setvareqM_fst
  | unset name => exact orRaiseM_fst setvarM_fst
  | exportArg name => exact orRaiseM_fst exportArgM_fst
  | readonlyArg name => exact orRaiseM_fst exportArgM_fst
  | localArg name =>
    change (localArgM rest name m).1 = (localArg name m.1).1 ∧
      (localArgM rest name m).2.1 = (localArg name m.1).2
    unfold localArgM localArg
    split
    · exact ⟨rfl, rfl⟩
    · exact mklocalM_fst
  | prefixAssign s => exact mklocalM_fst
  | pushlocalvars => exact ⟨rfl, rfl⟩
  | poplocalvars =>
    change (poplocalvarsM rest m).1 = (poplocalvars m.1).1 ∧
      (poplocalvarsM rest m).2.1 = (poplocalvars m.1).2
    unfold poplocalvarsM poplocalvars
    cases m.1.localvarStack with
    | nil => exact ⟨rfl, rfl⟩
    | cons ll next => exact poplocalvarListM_fst
  | setAflag b => exact ⟨rfl, rfl⟩
  | setLineno n => exact ⟨rfl, rfl⟩
  | lookupvar name => exact ⟨rfl, rfl⟩

end

/-! ### The layout of a text -/

theorem varName_varName (s : Text) : varName (varName s) = varName s :=
  Rel.varName_of_varValue (varValue_eq_none.mpr (varName_plain s))

/-- The text of a variable has the shape that the macros rely on. -/
def Shaped (name : Text) (value : Option Val) (unset : Bool) (block : Text) : Prop :=
  (unset = true ∧ value = none ∧ block = name ++ [nul, nul]) ∨
    (unset = false ∧ ∃ v, value = some (.text v) ∧ nul ∉ v ∧ block = name ++ '=' :: v ++ [nul])

def SavedShaped : Localvar → Text → Prop
  | .options _, _ => True
  | .var name value flags, block => varName name = name ∧
    (name ∈ accessed → flags.strfixed ∧ Shaped name value flags.unset block)

structure Memory.Laid (m : Memory) : Prop where
  vars : ∀ n ∈ accessed, ∃ vp, m.1.findvar n = some vp ∧ vp.flags.strfixed ∧
    Shaped n vp.value vp.flags.unset (m.2.text n)
  saved : List.Forall₂ (List.Forall₂ SavedShaped) m.1.localvarStack m.2.saved

section
variable {m m' : Memory} {st st' : Vars} {name s block : Text} {vp : Var} {value : Option Val}
  {val : Option Text} {flags flag : VFlags} {rest : Text → Char}

@[simp] theorem Texts.put_self (t : Texts) : (t.put name block).text name = block := by
  simp [Texts.put]

theorem Texts.put_ne (t : Texts) {n : Text} (h : n ≠ name) :
    (t.put name block).text n = t.text n := by
  simp [Texts.put, h]

theorem Texts.put_text (t : Texts) (name : Text) : t.put name (t.text name) = t := by
  rw [Texts.put, Function.update_eq_self]

theorem Memory.Laid.same (h : m.Laid) (htab : st'.vartab = m.1.vartab)
    (hstack : st'.localvarStack = m.1.localvarStack) : Memory.Laid (st', m.2) := by
  constructor
  · intro n hn
    obtain ⟨vp, hfind, hvp⟩ := h.vars n hn
    exact ⟨vp, by rw [Vars.findvar, htab]; exact hfind, hvp⟩
  · rw [hstack]
    exact h.saved

theorem Memory.Laid.store (h : m.Laid)
    (hvp : name ∈ accessed → vp.flags.strfixed ∧ Shaped name vp.value vp.flags.unset block) :
    Memory.Laid (m.1.store name vp, m.2.put name block) := by
  refine ⟨fun n hn => ?_, h.saved⟩
  by_cases hname : n = name
  · subst hname
    refine ⟨vp, by simp, (hvp hn).1, ?_⟩
    dsimp only
    rw [Texts.put_self]
    exact (hvp hn).2
  · obtain ⟨vp', hfind, hfix, hshape⟩ := h.vars n hn
    refine ⟨vp', by simp [hname, hfind], hfix, ?_⟩
    dsimp only
    rw [Texts.put_ne m.2 hname]
    exact hshape

theorem Memory.Laid.delete (h : m.Laid) (hname : name ∉ accessed) :
    Memory.Laid (m.1.delete name, m.2.put name block) := by
  refine ⟨fun n hn => ?_, h.saved⟩
  have hne : n ≠ name := by
    rintro rfl
    exact hname hn
  obtain ⟨vp, hfind, hfix, hshape⟩ := h.vars n hn
  refine ⟨vp, by simp [hne, hfind], hfix, ?_⟩
  dsimp only
  rw [Texts.put_ne m.2 hne]
  exact hshape

/-- The variables keep their texts when their flags change. -/
theorem Memory.Laid.reflag (h : m.Laid) (hfind : m.1.findvar name = some vp)
    {flags' : VFlags} (hunset : flags'.unset = vp.flags.unset)
    (hfix : name ∈ accessed → flags'.strfixed) :
    Memory.Laid (m.1.store name { vp with flags := flags' }, m.2) := by
  have hstore := @Memory.Laid.store m name (m.2.text name) { vp with flags := flags' } h
    fun hname => by
      obtain ⟨vp', hfind', -, hshape⟩ := h.vars name hname
      obtain rfl := Option.some.inj (hfind.symm.trans hfind')
      exact ⟨hfix hname, hunset ▸ hshape⟩
  rwa [Texts.put_text] at hstore

theorem Memory.Laid.put (h : m.Laid) (hname : name ∉ accessed) :
    Memory.Laid (m.1, m.2.put name block) := by
  refine ⟨fun n hn => ?_, h.saved⟩
  have hne : n ≠ name := by
    rintro rfl
    exact hname hn
  obtain ⟨vp, hfind, hfix, hshape⟩ := h.vars n hn
  refine ⟨vp, hfind, hfix, ?_⟩
  dsimp only
  rw [Texts.put_ne m.2 hne]
  exact hshape

/-- A variable with a macro is in the table. -/
theorem Memory.Laid.notMem (h : m.Laid) (hfind : m.1.findvar name = none) : name ∉ accessed := by
  intro hname
  obtain ⟨vp, hfind', -⟩ := h.vars name hname
  rw [hfind] at hfind'
  cases hfind'

theorem Memory.Laid.strfixed (h : m.Laid) (hfind : m.1.findvar name = some vp)
    (hname : name ∈ accessed) : vp.flags.strfixed := by
  obtain ⟨vp', hfind', hfix, -⟩ := h.vars name hname
  obtain rfl := Option.some.inj (hfind.symm.trans hfind')
  exact hfix

/-! ### The operations keep it -/

theorem Memory.Laid.setvareqVal (h : m.Laid) (hok : setvareqVal name value flags m.1 = .ok st')
    (hshape : name ∈ accessed → Shaped name value flags.unset block) :
    Memory.Laid (st', m.2.put name block) := by
  unfold Bootsh.setvareqVal at hok
  have haflag : (if m.1.aflag then flags ||| vexport else flags).unset = flags.unset := by
    split <;> simp
  rw [← haflag] at hshape
  generalize (if m.1.aflag then flags ||| vexport else flags) = flags at hok hshape
  dsimp only at hok
  cases hfind : m.1.findvar name with
  | none =>
    simp only [hfind] at hok
    have hname := h.notMem hfind
    split at hok
    · obtain rfl := Except.ok.inj hok
      exact h.put hname
    · obtain rfl := Except.ok.inj hok
      exact h.store fun hmem => absurd hmem hname
  | some vp =>
    simp only [hfind] at hok
    have hcall : Memory.Laid (if flags.nofunc then m.1 else m.1.callFunc vp.func value, m.2) := by
      split
      · exact h
      · exact h.same (Vars.callFunc_vartab _ _) (Vars.callFunc_localvarStack _ _)
    have hfix := h.strfixed hfind
    split at hok
    · cases hok
    · split at hok
      · obtain rfl := Except.ok.inj hok
        apply hcall.store
        intro hmem
        exact ⟨by simp [hfix hmem], by simpa using hshape hmem⟩
      · split at hok
        · obtain rfl := Except.ok.inj hok
          apply hcall.store
          intro hmem
          exact ⟨by simp [hfix hmem], by simpa using hshape hmem⟩
        case isFalse hnot =>
          obtain rfl := Except.ok.inj hok
          exact hcall.delete fun hmem => hnot (hfix hmem)

/-- The byte behind the text of an unset variable is a NUL, if the variable has a macro and is not
readonly. -/
def Ends (st : Vars) (name : Text) (rest : Text → Char) : Prop :=
  varName name ∈ accessed → (st.entry (varName name)).readonly = false → rest (varName name) = nul

theorem Memory.Laid.setvarM (h : m.Laid) (hok : setvarM rest name val flags m = .ok m')
    (hflags : flags.unset = false) (hval : ∀ v, val = some v → nul ∉ v)
    (hrest : val = none → Ends m.1 name rest) : m'.Laid := by
  unfold Bootsh.setvarM at hok
  cases hset : setvar name val flags m.1 with
  | error msg =>
    rw [hset] at hok
    cases hok
  | ok st' =>
    rw [hset] at hok
    obtain rfl := Except.ok.inj hok
    unfold setvar at hset
    split at hset
    · cases hset
    · apply h.setvareqVal hset
      intro hmem
      cases val with
      | some v =>
        refine .inr ⟨by simp [hflags], v, rfl, hval v rfl, rfl⟩
      | none =>
        have hro : (m.1.entry (varName name)).readonly = false := by
          by_contra hro
          rw [Vars.setvareqVal_readonly (by simpa using hro)] at hset
          cases hset
        refine .inl ⟨by simp, rfl, ?_⟩
        rw [setvarBlock, hrest rfl hmem hro]

theorem Memory.Laid.setvareqM (h : m.Laid) (hok : setvareqM s flags m = .ok m')
    (hflags : flags.unset = false) (hnul : nul ∉ s) (hvalue : varValue s ≠ none) : m'.Laid := by
  unfold Bootsh.setvareqM at hok
  cases hset : setvareq s flags m.1 with
  | error msg =>
    rw [hset] at hok
    cases hok
  | ok st' =>
    rw [hset] at hok
    obtain rfl := Except.ok.inj hok
    obtain ⟨v, hv⟩ := Option.ne_none_iff_exists'.mp hvalue
    have heq := varName_append_value hv
    apply h.setvareqVal hset
    intro _
    refine .inr ⟨hflags, v, by rw [hv]; rfl, ?_, ?_⟩
    · intro hmem
      apply hnul
      rw [← heq]
      simp [hmem]
    · rw [heq]

theorem Memory.Laid.exportArgM (h : m.Laid) (hok : exportArgM rest flag name m = .ok m')
    (hflag : flag.unset = false) (hnul : nul ∉ name) : m'.Laid := by
  unfold Bootsh.exportArgM at hok
  cases hvalue : varValue name with
  | some v =>
    simp only [hvalue] at hok
    refine h.setvarM hok hflag ?_ (by simp)
    intro v' hv' hmem
    obtain rfl := Option.some.inj hv'
    exact hnul (varName_append_value hvalue ▸ by simp [hmem])
  | none =>
    simp only [hvalue] at hok
    cases hfind : m.1.findvar name with
    | some vp =>
      simp only [hfind] at hok
      obtain rfl := Except.ok.inj hok
      exact h.reflag hfind (by simp [hflag]) fun hmem => by simp [h.strfixed hfind hmem]
    | none =>
      simp only [hfind] at hok
      refine h.setvarM hok hflag (by simp) fun _ hmem => ?_
      rw [Rel.varName_of_varValue hvalue] at hmem
      exact absurd hmem (h.notMem hfind)

theorem Memory.Laid.orRaiseM {r : Except Text Memory} (h : m.Laid)
    (hr : ∀ m', r = .ok m' → m'.Laid) : (orRaiseM r m).2.Laid := by
  cases r with
  | ok m' => exact hr m' rfl
  | error msg => exact h

theorem Memory.Laid.linkLocalM {lvp : Localvar} (h : m.Laid) (hlvp : SavedShaped lvp block) :
    (linkLocalM lvp block m).Laid := by
  obtain ⟨vars, t⟩ := m
  obtain ⟨tab, stack, aflag, lineno, buffer, called⟩ := vars
  obtain ⟨text, saved⟩ := t
  obtain ⟨hvars, hsaved⟩ := h
  cases hsaved with
  | nil => exact ⟨hvars, .nil⟩
  | cons hscope hscopes => exact ⟨hvars, .cons (.cons hlvp hscope) hscopes⟩

theorem Memory.Laid.mklocalM (h : m.Laid) (hflags : flags.unset = false) (hnul : nul ∉ name) :
    (mklocalM rest name flags m).2.Laid := by
  unfold Bootsh.mklocalM
  split
  · exact h.linkLocalM trivial
  · cases hfind : m.1.findvar (varName name) with
    | none =>
      have hname := h.notMem hfind
      dsimp only
      split
      case h_1 => exact h
      case h_2 m' hok =>
        have hm' : m'.Laid := by
          split at hok
          case isTrue hvalue =>
            exact h.setvareqM hok (by simp [hflags]) hnul (Option.isSome_iff_ne_none.mp hvalue)
          case isFalse =>
            exact h.setvarM hok (by simp [hflags]) (by simp) fun _ hmem => absurd hmem hname
        exact hm'.linkLocalM ⟨varName_varName name, fun hmem => absurd hmem hname⟩
    | some vp =>
      have hstore := @Memory.Laid.reflag m (varName name) vp h hfind
        (vp.flags ||| (vstrfixed ||| vtextfixed)) (by simp) (by simp)
      have hlvp : SavedShaped (.var (varName name) vp.value vp.flags)
          (m.2.text (varName name)) := by
        refine ⟨varName_varName name, fun hmem => ?_⟩
        obtain ⟨vp', hfind', hfix, hshape⟩ := h.vars _ hmem
        obtain rfl := Option.some.inj (hfind.symm.trans hfind')
        exact ⟨hfix, hshape⟩
      dsimp only
      split
      case isTrue hvalue =>
        split
        case h_1 => exact hstore
        case h_2 m' hok =>
          exact (hstore.setvareqM hok hflags hnul
            (Option.isSome_iff_ne_none.mp hvalue)).linkLocalM hlvp
      case isFalse => exact hstore.linkLocalM hlvp

theorem Memory.Laid.poplocalvarM {lvp : Localvar} (h : m.Laid) (hlvp : SavedShaped lvp block)
    (hok : poplocalvarM rest lvp block m = .ok m') : m'.Laid := by
  cases lvp with
  | options aflag =>
    obtain rfl := Except.ok.inj hok
    exact h.same rfl rfl
  | var name value flags =>
    unfold Bootsh.poplocalvarM at hok
    dsimp only at hok
    cases hfind : m.1.findvar name with
    | none =>
      simp only [hfind] at hok
      obtain rfl := Except.ok.inj hok
      exact h
    | some vp =>
      simp only [hfind] at hok
      split at hok
      case isTrue hunset =>
        have hname : name ∉ accessed := by
          intro hmem
          have hfix := (hlvp.2 hmem).1
          simp [hunset] at hfix
        have hstore := @Memory.Laid.reflag m name vp h hfind
          (vp.flags &&& ~~~(vstrfixed ||| vreadonly)) (by simp) fun hmem => absurd hmem hname
        refine hstore.setvarM hok rfl (by simp) fun _ hmem => ?_
        rw [hlvp.1] at hmem
        exact absurd hmem hname
      case isFalse =>
        obtain rfl := Except.ok.inj hok
        exact (h.same (Vars.callFunc_vartab _ _) (Vars.callFunc_localvarStack _ _)).store hlvp.2

theorem Memory.Laid.poplocalvarListM {l : List Localvar} {blocks : List Text} (h : m.Laid)
    (hl : List.Forall₂ SavedShaped l blocks) : (poplocalvarListM rest l blocks m).2.Laid := by
  induction hl generalizing m with
  | nil => exact h
  | cons hlvp _ ih =>
    rw [Bootsh.poplocalvarListM]
    split
    case h_1 => exact h
    case h_2 m' hok => exact ih (h.poplocalvarM hlvp hok)

theorem Memory.Laid.poplocalvarsM (h : m.Laid) : (poplocalvarsM rest m).2.Laid := by
  obtain ⟨vars, t⟩ := m
  obtain ⟨tab, stack, aflag, lineno, buffer, called⟩ := vars
  obtain ⟨text, saved⟩ := t
  obtain ⟨hvars, hsaved⟩ := h
  cases hsaved with
  | nil => exact ⟨hvars, .nil⟩
  | cons hscope hscopes => exact Memory.Laid.poplocalvarListM ⟨hvars, hscopes⟩ hscope

end

/-! ### Runs -/

/-- What the callers see to: texts are C strings, and the ones of `setvareq` have a value. -/
def VarOp.Called : VarOp → Prop
  | .setvar _ val flags => flags.unset = false ∧ ∀ v, val = some v → nul ∉ v
  | .setvareq s flags => flags.unset = false ∧ nul ∉ s ∧ varValue s ≠ none
  | .exportArg s | .readonlyArg s | .localArg s | .prefixAssign s => nul ∉ s
  | _ => True

/-- A variable with a macro is only unset where the block for its text ends in a NUL. -/
def Clean (m : Memory) : VarOp × (Text → Char) → Prop
  | (.setvar name none _, rest) | (.unset name, rest) => Ends m.1 name rest
  | _ => True

theorem Memory.Laid.step {m : Memory} (h : m.Laid) (op : VarOp × (Text → Char))
    (hop : op.1.Called ∧ Clean m op) : (m.step op).2.Laid := by
  obtain ⟨op, rest⟩ := op
  obtain ⟨hcalled, hclean⟩ := hop
  cases op with
  | setvar name val flags =>
    apply h.orRaiseM
    intro m' hok
    refine h.setvarM hok hcalled.1 hcalled.2 ?_
    rintro rfl
    exact hclean
  | setvareq s flags =>
    exact h.orRaiseM fun m' hok => h.setvareqM hok hcalled.1 hcalled.2.1 hcalled.2.2
  | unset name => exact h.orRaiseM fun m' hok => h.setvarM hok rfl (by simp) fun _ => hclean
  | exportArg name => exact h.orRaiseM fun m' hok => h.exportArgM hok rfl hcalled
  | readonlyArg name => exact h.orRaiseM fun m' hok => h.exportArgM hok rfl hcalled
  | localArg name =>
    change (localArgM rest name m).2.Laid
    unfold localArgM
    split
    · exact h
    · exact h.mklocalM rfl hcalled
  | prefixAssign s => exact h.mklocalM rfl hcalled
  | pushlocalvars => exact ⟨h.vars, .cons .nil h.saved⟩
  | poplocalvars => exact h.poplocalvarsM
  | setAflag b => exact h.same rfl rfl
  | setLineno n => exact h.same rfl rfl
  | lookupvar name =>
    change Memory.Laid ((Bootsh.lookupvar name m.1).2, m.2)
    unfold Bootsh.lookupvar
    split
    · exact h
    · split
      · exact h
      · dsimp only
        split
        · exact h.same rfl rfl
        · exact h

/-! ### The start -/

theorem Memory.Laid.importVarM {m : Memory} {s : Text} {flags : VFlags} (h : m.Laid)
    (hflags : flags.unset = false) (hnul : nul ∉ s) (hvalue : varValue s ≠ none) :
    (importVarM s flags m).Laid :=
  h.orRaiseM fun _ hok => h.setvareqM hok hflags hnul hvalue

/-- A variable of `varinit` with its text. -/
structure InitShaped (root : Bool) (name : Text) (vp : Var) : Prop where
  find : Chain.find name (varinit root) = some vp
  strfixed : vp.flags.strfixed
  shape : Shaped name vp.value vp.flags.unset ((initTexts root).text name)

theorem initShaped_set {root : Bool} {name v : Text} {vp : Var}
    (hfind : Chain.find name (varinit root) = some vp) (hfix : vp.flags.strfixed)
    (hunset : vp.flags.unset = false) (hvalue : vp.value = some (.text v)) (hnul : nul ∉ v)
    (htext : (initTexts root).text name = name ++ '=' :: v ++ [nul]) : InitShaped root name vp :=
  ⟨hfind, hfix, .inr ⟨hunset, v, hvalue, hnul, htext⟩⟩

theorem initvar_shaped (root : Bool) {name : Text} (hname : name ∈ accessed) :
    ∃ vp, InitShaped root name vp := by
  simp only [accessed, List.mem_cons, List.not_mem_nil, or_false] at hname
  cases root <;> rcases hname with rfl | rfl | rfl | rfl | rfl | rfl | rfl | rfl
  case false.inr.inl => exact ⟨_, rfl, rfl, .inl ⟨rfl, rfl, by decide⟩⟩
  case false.inr.inr.inl => exact ⟨_, rfl, rfl, .inl ⟨rfl, rfl, by decide⟩⟩
  case true.inr.inl => exact ⟨_, rfl, rfl, .inl ⟨rfl, rfl, by decide⟩⟩
  case true.inr.inr.inl => exact ⟨_, rfl, rfl, .inl ⟨rfl, rfl, by decide⟩⟩
  all_goals exact ⟨_, initShaped_set rfl rfl rfl rfl (by decide) (by decide)⟩

theorem initvar_laid (root : Bool) : Memory.Laid (initvar root, initTexts root) := by
  refine ⟨fun n hn => ?_, .nil⟩
  obtain ⟨vp, hvp⟩ := initvar_shaped root hn
  exact ⟨vp, (Vars.findvar_initvar root n).trans hvp.find, hvp.strfixed, hvp.shape⟩

/-- The environment is made of C strings. -/
theorem initMemory_laid (root : Bool) {environ : List Text} {ppid : Text}
    (henviron : ∀ s ∈ environ, nul ∉ s) (hppid : nul ∉ ppid) :
    (initMemory root environ ppid).Laid := by
  have henv : (environ.foldl importEnvM (initvar root, initTexts root)).Laid := by
    apply List.foldlRecOn environ importEnvM (initvar_laid root)
    intro m hm s hs
    unfold importEnvM
    split
    case isTrue hgood =>
      rw [Bool.and_eq_true] at hgood
      exact hm.importVarM rfl (henviron s hs) (Option.isSome_iff_ne_none.mp hgood.2)
    case isFalse => exact hm
  refine ((henv.importVarM rfl ?_ ?_).importVarM rfl ?_ ?_).importVarM rfl ?_ ?_
  · decide
  · decide
  · decide
  · decide
  · rw [List.mem_append, not_or]
    exact ⟨by decide, hppid⟩
  · rw [Ne, varValue_eq_none]
    simp

/-! ### The macros -/

/-- The value of a variable that is set, else the empty string. -/
def denoted (st : Vars) (name : String) : Option Text :=
  some ((lookupvar name.toList st).1.getD [])

structure Memory.Agrees (m : Memory) : Prop where
  ifsval : m.2.ifsval = denoted m.1 "IFS"
  mailval : m.2.mailval = denoted m.1 "MAIL"
  mpathval : m.2.mpathval = denoted m.1 "MAILPATH"
  pathval : m.2.pathval = denoted m.1 "PATH"
  ps1val : m.2.ps1val = denoted m.1 "PS1"
  ps2val : m.2.ps2val = denoted m.1 "PS2"
  ps4val : m.2.ps4val = denoted m.1 "PS4"
  optindval : m.2.optindval = denoted m.1 "OPTIND"
  ifsset : ifsset m.1 = (lookupvar "IFS".toList m.1).1.isSome

theorem cstring_value {s : Text} (h : nul ∉ s) (rest : Text) : cstring (s ++ nul :: rest) = some s := by
  rw [cstring, if_pos (by simp), List.takeWhile_append_of_pos]
  · simp
  · intro c hc
    apply decide_eq_true
    rintro rfl
    exact h hc

theorem Memory.Laid.accessor {m : Memory} (h : m.Laid) {name : String}
    (hname : name.toList ∈ accessed) {skip : ℕ} (hskip : skip = name.toList.length + 1) :
    m.2.accessor name skip = denoted m.1 name := by
  obtain ⟨vp, hfind, -, hshape⟩ := h.vars _ hname
  subst hskip
  unfold Texts.accessor denoted lookupvar
  rw [hfind]
  rcases hshape with ⟨hunset, hvalue, hblock⟩ | ⟨hunset, v, hvalue, hnul, hblock⟩
  · dsimp only
    rw [hblock, ← List.singleton_append, ← List.append_assoc, List.drop_left' (by simp), if_pos hunset]
    rfl
  · dsimp only
    rw [hblock, hvalue, if_neg (by simp [hunset]), List.append_assoc, List.cons_append,
      ← List.singleton_append, ← List.append_assoc, List.drop_left' (by simp), cstring_value hnul]
    rfl

theorem Memory.Laid.agrees {m : Memory} (h : m.Laid) : m.Agrees where
  ifsval := h.accessor (by decide) rfl
  mailval := h.accessor (by decide) rfl
  mpathval := h.accessor (by decide) rfl
  pathval := h.accessor (by decide) rfl
  ps1val := h.accessor (by decide) rfl
  ps2val := h.accessor (by decide) rfl
  ps4val := h.accessor (by decide) rfl
  optindval := h.accessor (by decide) rfl
  ifsset := by
    obtain ⟨vp, hfind, -, hshape⟩ := h.vars "IFS".toList (by decide)
    unfold Bootsh.ifsset lookupvar
    rw [hfind]
    rcases hshape with ⟨hunset, -, -⟩ | ⟨hunset, v, hvalue, -, -⟩
    · simp [hunset]
    · simp [hunset, hvalue]

/-- In a run in which every variable that has a macro is only unset where the block for its text
ends in a NUL, the macros agree with `lookupvar` in every state. -/
theorem accessors_agree (root : Bool) {environ : List Text} {ppid : Text}
    (henviron : ∀ s ∈ environ, nul ∉ s) (hppid : nul ∉ ppid) {ops : List (VarOp × (Text → Char))}
    (hops : Run.Along Memory.step (fun m op => op.1.Called ∧ Clean m op)
      (initMemory root environ ppid) ops) :
    ∀ ops', ops' <+: ops → (Run.run Memory.step (initMemory root environ ppid) ops').2.Agrees := by
  intro ops' hle
  have hlaid : (Run.run Memory.step (initMemory root environ ppid) ops').2.Laid :=
    Run.run_invariant (fun m op hm hop => hm.step op hop) (initMemory_laid root henviron hppid)
      (hops.of_prefix hle)
  exact hlaid.agrees

/-- The byte that `ckmalloc` leaves behind the text of an unset variable. -/
def leaves (c : Char) : Text → Char := fun _ => c

/-- `f() { local PATH=/x; unset PS1; IFS=:; unset IFS; }; f` -/
def unsetInFunction : List (VarOp × (Text → Char)) :=
  [(.pushlocalvars, leaves 'a'), (.localArg "PATH=/x".toList, leaves 'b'),
    (.unset "PS1".toList, leaves nul), (.setvareq "IFS=:".toList zero, leaves 'c'),
    (.unset "IFS".toList, leaves nul), (.poplocalvars, leaves 'd')]

theorem accessors_agree_unset :
    (Run.run Memory.step (initMemory false ["PS2=% ".toList] "7".toList)
      unsetInFunction).2.Agrees := by
  have hops : Run.Along Memory.step (fun m op => op.1.Called ∧ Clean m op)
      (initMemory false ["PS2=% ".toList] "7".toList) unsetInFunction :=
    ⟨⟨trivial, trivial⟩, ⟨(by decide : nul ∉ "PATH=/x".toList), trivial⟩,
      ⟨trivial, fun _ _ => rfl⟩, ⟨⟨rfl, by decide, by decide⟩, trivial⟩,
      ⟨trivial, fun _ _ => rfl⟩, ⟨trivial, trivial⟩, trivial⟩
  exact accessors_agree false (by decide) (by decide) hops _ List.prefix_rfl

/-- `unset PATH`: `pathval` reads the byte behind the NUL, and then past the block. -/
theorem accessors_not_agree :
    let m := (initMemory false [] "7".toList).step (.unset "PATH".toList, leaves 'x')
    m.1 = none ∧ m.2.2.pathval = none ∧ denoted m.2.1 "PATH" = some [] ∧ ¬m.2.Agrees := by
  intro m
  have hpath : m.2.2.pathval = none := by decide +kernel
  have hdenoted : denoted m.2.1 "PATH" = some [] := by decide +kernel
  refine ⟨by decide +kernel, hpath, hdenoted, fun h => ?_⟩
  have heq := h.pathval
  rw [hpath, hdenoted] at heq
  cases heq

end Bootsh
