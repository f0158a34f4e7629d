import Bootsh.Options.Call

/-!
What a call leaves of its caller's parameters: all of them, but for the position of `getopts`
where the scope of the call has saved `OPTIND`.
-/
namespace Bootsh.Options

/-! ### The hook of `OPTIND` -/

def optindName : Text := "OPTIND".toList

theorem hookOf_optind : hookOf optindName = some .getoptsreset := by decide

theorem eq_optind_of_hookOf {name : Text} (h : hookOf name = some .getoptsreset) :
    name = optindName := by
  obtain ⟨vp, hfind, hfunc⟩ := Option.bind_eq_some_iff.1 h
  have hnodup : (Chain.keys (varinit false)).Nodup := by decide
  have hmem : (name, vp) ∈ varinit false := (Chain.mem_iff_find hnodup).2 hfind
  have honly : ∀ p ∈ varinit false, p.2.func = some .getoptsreset → p.1 = optindName := by decide
  exact honly _ hmem hfunc

/-- The hook of `OPTIND` is not among the calls. -/
def NoReset (calls : List (VarFunc × Text)) : Prop := ∀ c ∈ calls, c.1 ≠ .getoptsreset

theorem callHooks_noReset {calls : List (VarFunc × Text)} (h : NoReset calls) (sp : Shparam) :
    callHooks calls sp = .ok sp := by
  induction calls with
  | nil => rfl
  | cons c calls ih =>
    obtain ⟨func, value⟩ := c
    have hfunc : func ≠ .getoptsreset := h (func, value) (by simp)
    rw [callHooks, ih fun c hc => h c (by simp [hc])]
    cases func with
    | getoptsreset => exact absurd rfl hfunc
    | changepath | changemail => rfl

/-- The parameters themselves are the same. -/
structure SameParams (sp sp' : Shparam) : Prop where
  nparam : sp'.nparam = sp.nparam
  p : sp'.p = sp.p

theorem getoptsreset_same {value : Text} {sp sp' : Shparam} (h : getoptsreset value sp = .ok sp') :
    SameParams sp sp' := by
  unfold getoptsreset at h
  cases hn : optindOf value with
  | error msg =>
    rw [hn] at h
    cases h
  | ok n =>
    rw [hn] at h
    cases h
    exact ⟨rfl, rfl⟩

theorem callHooks_same {calls : List (VarFunc × Text)} {sp sp' : Shparam}
    (h : callHooks calls sp = .ok sp') : SameParams sp sp' := by
  induction calls generalizing sp' with
  | nil =>
    cases h
    exact ⟨rfl, rfl⟩
  | cons c calls ih =>
    obtain ⟨func, value⟩ := c
    rw [callHooks] at h
    cases hcalls : callHooks calls sp with
    | error msg =>
      rw [hcalls] at h
      cases h
    | ok sp₁ =>
      have hsame := ih hcalls
      rw [hcalls] at h
      cases func with
      | getoptsreset =>
        have hreset := getoptsreset_same h
        exact ⟨hreset.nparam.trans hsame.nparam, hreset.p.trans hsame.p⟩
      | changepath | changemail =>
        cases h
        exact hsame

/-! ### Operations on variables -/

section
variable {vars vars' : Vars} {name s : Text} {value : Option Val} {flags : VFlags}

/-- What an assignment does but for the table: the scopes stay, and the only hook is that of the
variable. -/
structure Calls (vars vars' : Vars) (name : Text) (value : Option Val) : Prop where
  stack : vars'.localvarStack = vars.localvarStack
  buffer : vars'.linenovar = vars.linenovar
  called : vars'.called = vars.called ∨
    ∃ f, hookOf name = some f ∧
      vars'.called = (f, (value.map (Val.render vars.linenovar)).getD []) :: vars.called

theorem Calls.refl (vars : Vars) (name : Text) (value : Option Val) :
    Calls vars vars name value := ⟨rfl, rfl, .inl rfl⟩

theorem callFunc_calls (h : vars.Hooks) {vp : Var} (hfind : vars.findvar name = some vp) :
    Calls vars (vars.callFunc vp.func value) name value := by
  have hfunc := h.func hfind
  refine ⟨Vars.callFunc_localvarStack _ _, ?_, ?_⟩
  · cases vp.func <;> rfl
  cases hf : vp.func with
  | none => exact .inl rfl
  | some f =>
    rw [hf] at hfunc
    exact .inr ⟨f, hfunc.symm, rfl⟩

theorem setvareqVal_calls (h : vars.Hooks) (hok : setvareqVal name value flags vars = .ok vars') :
    Calls vars vars' name value := by
  unfold setvareqVal at hok
  generalize (if vars.aflag then flags ||| VFlags.vexport else flags) = flags at hok
  dsimp only at hok
  split at hok
  case h_1 vp hfind =>
    have hcall : Calls vars (if flags.nofunc then vars else vars.callFunc vp.func value) name
        value := by
      split
      · exact .refl vars name value
      · exact callFunc_calls h hfind
    split at hok
    · cases hok
    · split at hok
      · obtain rfl := Except.ok.inj hok
        exact ⟨hcall.stack, hcall.buffer, hcall.called⟩
      · split at hok
        · obtain rfl := Except.ok.inj hok
          exact ⟨hcall.stack, hcall.buffer, hcall.called⟩
        · obtain rfl := Except.ok.inj hok
          exact ⟨hcall.stack, hcall.buffer, hcall.called⟩
  case h_2 =>
    split at hok
    · obtain rfl := Except.ok.inj hok
      exact .refl _ _ _
    · obtain rfl := Except.ok.inj hok
      exact ⟨rfl, rfl, .inl rfl⟩

theorem setvar_calls {val : Option Text} (h : vars.Hooks)
    (hok : setvar name val flags vars = .ok vars') :
    Calls vars vars' (varName name) (val.map .text) := by
  unfold setvar at hok
  split at hok
  · cases hok
  · exact setvareqVal_calls h hok

/-- The name that a saved variable has. -/
def savedName : Localvar → Option Text
  | .options _ => none
  | .var name _ _ => some name

/-- `mklocal` saves the variable in the innermost scope, or fails and has called no hook. -/
theorem mklocal_calls (h : vars.Hooks) {l : List Localvar} {ls : List (List Localvar)}
    (hstack : vars.localvarStack = l :: ls) :
    (mklocal name flags vars).2.called = vars.called ∧
        (mklocal name flags vars).2.localvarStack = l :: ls ∧ (mklocal name flags vars).1.isSome ∨
      ∃ lvp vars', mklocal name flags vars = (none, vars') ∧
        vars'.localvarStack = (lvp :: l) :: ls ∧
        (vars'.called = vars.called ∨ ∃ f value, hookOf (varName name) = some f ∧
          savedName lvp = some (varName name) ∧ vars'.called = (f, value) :: vars.called) := by
  have hlink : ∀ lvp vars', vars'.localvarStack = l :: ls →
      (linkLocal lvp vars').localvarStack = (lvp :: l) :: ls ∧
        (linkLocal lvp vars').called = vars'.called := by
    intro lvp vars' h'
    unfold linkLocal
    rw [h']
    exact ⟨rfl, rfl⟩
  unfold mklocal
  split
  · obtain ⟨hl, hc⟩ := hlink (.options vars.aflag) vars hstack
    exact .inr ⟨_, _, rfl, hl, .inl hc⟩
  · split
    case h_1 hfind =>
      have hnone := h.absent hfind
      split
      case h_1 => exact .inl ⟨rfl, hstack, rfl⟩
      case h_2 vars₁ hok =>
        have hcalls : vars₁.localvarStack = vars.localvarStack ∧ vars₁.called = vars.called := by
          have hsame : ∀ {value}, Calls vars vars₁ (varName name) value →
              vars₁.localvarStack = vars.localvarStack ∧ vars₁.called = vars.called := by
            rintro value ⟨hstack, -, heq | ⟨f, hf, -⟩⟩
            · exact ⟨hstack, heq⟩
            · rw [hnone] at hf
              cases hf
          split at hok
          · exact hsame (setvareqVal_calls h hok)
          · exact hsame (setvar_calls h hok)
        obtain ⟨hl, hc⟩ := hlink (.var (varName name) none VFlags.vunset) vars₁
          (hcalls.1.trans hstack)
        exact .inr ⟨_, _, rfl, hl, .inl (hc.trans hcalls.2)⟩
    case h_2 vp hfind =>
      have hfunc : vp.func = hookOf (varName name) := h.func hfind
      have hstore : (vars.store (varName name)
          { vp with flags := vp.flags ||| (VFlags.vstrfixed ||| VFlags.vtextfixed) }).Hooks :=
        h.store hfunc (by simp)
      dsimp only
      split
      · split
        case h_1 => exact .inl ⟨rfl, hstack, rfl⟩
        case h_2 vars₁ hok =>
          have hcalls := setvareqVal_calls hstore hok
          obtain ⟨hl, hc⟩ := hlink (.var (varName name) vp.value vp.flags) vars₁
            (hcalls.stack.trans hstack)
          refine .inr ⟨_, _, rfl, hl, ?_⟩
          rcases hcalls.called with hsame | ⟨f, hf, hcalled⟩
          · exact .inl (hc.trans hsame)
          · exact .inr ⟨f, _, hf, rfl, hc.trans hcalled⟩
      · obtain ⟨hl, hc⟩ := hlink (.var (varName name) vp.value vp.flags) (vars.store (varName name)
          { vp with flags := vp.flags ||| (VFlags.vstrfixed ||| VFlags.vtextfixed) }) hstack
        exact .inr ⟨_, _, rfl, hl, .inl hc⟩

end

/-! ### The scopes -/

/-- In the innermost scope of `s` more has been saved, and there may be new scopes. -/
def Grows : List (List Localvar) → List (List Localvar) → Prop
  | [], _ => True
  | l :: ls, s' => ∃ scopes l', s' = scopes ++ (l' ++ l) :: ls

theorem Grows.refl (s : List (List Localvar)) : Grows s s := by
  cases s with
  | nil => trivial
  | cons l ls => exact ⟨[], [], rfl⟩

theorem Grows.trans {s s' s'' : List (List Localvar)} (h : Grows s s') (h' : Grows s' s'') :
    Grows s s'' := by
  cases s with
  | nil => trivial
  | cons l ls =>
    obtain ⟨scopes, l', rfl⟩ := h
    cases scopes with
    | nil =>
      obtain ⟨scopes', l'', rfl⟩ := h'
      exact ⟨scopes', l'' ++ l', by rw [List.append_assoc]⟩
    | cons m scopes =>
      obtain ⟨scopes', m', rfl⟩ := h'
      exact ⟨scopes' ++ (m' ++ m) :: scopes, l', by simp⟩

theorem Grows.of_eq {s s' : List (List Localvar)} (h : s' = s) : Grows s s' := h ▸ Grows.refl s

theorem orRaise_stack {r : Except Text Vars} {vars : Vars}
    (h : ∀ vars', r = .ok vars' → vars'.localvarStack = vars.localvarStack) :
    (orRaise r vars).2.localvarStack = vars.localvarStack := by
  cases r with
  | ok vars' => exact h vars' rfl
  | error msg => rfl

theorem exportArg_stack {vars vars' : Vars} {flag : VFlags} {name : Text} (h : vars.Hooks)
    (hok : exportArg flag name vars = .ok vars') : vars'.localvarStack = vars.localvarStack := by
  unfold exportArg at hok
  split at hok
  · exact (setvar_calls h hok).stack
  · split at hok
    · obtain rfl := Except.ok.inj hok
      rfl
    · exact (setvar_calls h hok).stack

/-- The scopes that an operation leaves. -/
theorem step_grows {vars : Vars} (h : vars.Hooks) {op : VarOp}
    (hop : op ≠ .pushlocalvars ∧ op ≠ .poplocalvars ∧ ∀ s, op ≠ .prefixAssign s) :
    Grows vars.localvarStack (vars.step op).2.localvarStack := by
  cases op with
  | setvar name val flags => exact .of_eq (orRaise_stack fun _ hok => (setvar_calls h hok).stack)
  | setvareq s flags => exact .of_eq (orRaise_stack fun _ hok => (setvareqVal_calls h hok).stack)
  | unset name => exact .of_eq (orRaise_stack fun _ hok => (setvar_calls h hok).stack)
  | exportArg name => exact .of_eq (orRaise_stack fun _ hok => exportArg_stack h hok)
  | readonlyArg name => exact .of_eq (orRaise_stack fun _ hok => exportArg_stack h hok)
  | localArg name =>
    cases hstack : vars.localvarStack with
    | nil => trivial
    | cons l ls =>
      change Grows (l :: ls) (localArg name vars).2.localvarStack
      unfold localArg
      rw [if_neg (by simp [hstack])]
      rcases @mklocal_calls vars name VFlags.zero h l ls hstack with ⟨-, hs, -⟩ | ⟨lvp, vars', hok, hs, -⟩
      · rw [hs]
        exact .refl _
      · rw [hok, hs]
        exact ⟨[], [lvp], rfl⟩
  | prefixAssign s => exact absurd rfl (hop.2.2 s)
  | pushlocalvars => exact absurd rfl hop.1
  | poplocalvars => exact absurd rfl hop.2.1
  | setAflag b | setLineno n => exact .refl _
  | lookupvar name =>
    apply Grows.of_eq
    change (lookupvar name vars).2.localvarStack = _
    unfold lookupvar
    split
    · rfl
    · split
      · rfl
      · dsimp only
        split <;> rfl

/-! ### States -/

section
variable {st st' : State} {vars : Vars}

/-- What `settle` makes of the hooks that were called. -/
theorem settle_ok {h : vars.Hooks} (hok : st.settle vars h = .ok st') :
    st'.vars = { vars with called := [] } ∧
      callHooks vars.called st.shellparam = .ok st'.shellparam := by
  unfold State.settle at hok
  split at hok
  case h_1 => cases hok
  case h_2 sp hsp =>
    obtain rfl := Except.ok.inj hok
    exact ⟨rfl, hsp⟩

theorem varOp_grows {op : VarOp}
    (hop : op ≠ .pushlocalvars ∧ op ≠ .poplocalvars ∧ ∀ s, op ≠ .prefixAssign s) :
    Grows st.vars.localvarStack (st.varOp op).2.vars.localvarStack := by
  unfold State.varOp
  split
  case h_1 => exact .refl _
  case h_2 st' hok =>
    rw [(settle_ok hok).1]
    exact step_grows st.hooks hop

/-- A scope that has saved more, and `OPTIND` among it if the position has changed. -/
structure Assigned (st st' : State) (l : List Localvar) (ls : List (List Localvar)) : Prop where
  params : SameParams st.shellparam st'.shellparam
  stack : ∃ l', st'.vars.localvarStack = (l' ++ l) :: ls ∧
    (st'.shellparam = st.shellparam ∨ ∃ lvp ∈ l', savedName lvp = some optindName)

theorem prefixAssign_assigned {s : Text} {l : List Localvar} {ls : List (List Localvar)}
    (hstack : st.vars.localvarStack = l :: ls) :
    Assigned st (st.varOp (.prefixAssign s)).2 l ls := by
  unfold State.varOp
  split
  case h_1 => exact ⟨⟨rfl, rfl⟩, [], hstack, .inl rfl⟩
  case h_2 st' hok =>
    obtain ⟨hvars, hcalls⟩ := settle_ok hok
    refine ⟨callHooks_same hcalls, ?_⟩
    rw [hvars]
    have hmk := @mklocal_calls st.vars s VFlags.vexport st.hooks l ls hstack
    change (∃ l', (mklocal s VFlags.vexport st.vars).2.localvarStack = (l' ++ l) :: ls ∧ _)
    have hnone : ∀ calls, calls = st.vars.called → callHooks calls st.shellparam =
        .ok st'.shellparam → st'.shellparam = st.shellparam := by
      rintro calls rfl hrun
      rw [st.quiet] at hrun
      exact (Except.ok.inj hrun).symm
    rcases hmk with ⟨hcalled, hs, -⟩ | ⟨lvp, vars', hmk, hs, hcalled | ⟨f, value, hf, hname, hcalled⟩⟩
    · exact ⟨[], hs, .inl (hnone _ hcalled hcalls)⟩
    · rw [hmk]
      refine ⟨[lvp], hs, .inl (hnone vars'.called hcalled ?_)⟩
      have : (st.vars.step (.prefixAssign s)).2 = vars' := congrArg Prod.snd hmk
      rw [← this]
      exact hcalls
    · rw [hmk]
      refine ⟨[lvp], hs, ?_⟩
      by_cases hreset : f = .getoptsreset
      · rw [hreset] at hf
        exact .inr ⟨lvp, by simp, hname.trans (congrArg some (eq_optind_of_hookOf hf))⟩
      · have hvars' : (st.vars.step (.prefixAssign s)).2 = vars' := congrArg Prod.snd hmk
        rw [hvars', hcalled, st.quiet, callHooks_noReset (by simp [NoReset, hreset])] at hcalls
        exact .inl (Except.ok.inj hcalls).symm

theorem Assigned.trans {st'' : State} {l l' : List Localvar} {ls : List (List Localvar)}
    (h : Assigned st st' l ls) (hl : st'.vars.localvarStack = l' :: ls)
    (h' : Assigned st' st'' l' ls) : Assigned st st'' l ls := by
  obtain ⟨hparams, l₁, hs₁, hsaved⟩ := h
  obtain ⟨hparams', l₂, hs₂, hsaved'⟩ := h'
  obtain rfl : l' = l₁ ++ l := (List.cons.inj (hl.symm.trans hs₁)).1
  refine ⟨⟨hparams'.nparam.trans hparams.nparam, hparams'.p.trans hparams.p⟩, l₂ ++ l₁,
    by rw [hs₂, List.append_assoc], ?_⟩
  rcases hsaved' with heq' | ⟨lvp, hmem, hname⟩
  · rcases hsaved with heq | ⟨lvp, hmem, hname⟩
    · exact .inl (heq'.trans heq)
    · exact .inr ⟨lvp, List.mem_append_right _ hmem, hname⟩
  · exact .inr ⟨lvp, List.mem_append_left _ hmem, hname⟩

theorem prefixAssigns_assigned {assigns : List Text} {l : List Localvar}
    {ls : List (List Localvar)} (hstack : st.vars.localvarStack = l :: ls) :
    Assigned st (st.varOps (assigns.map .prefixAssign)).2 l ls := by
  induction assigns generalizing st l with
  | nil => exact ⟨⟨rfl, rfl⟩, [], hstack, .inl rfl⟩
  | cons s assigns ih =>
    have h := @prefixAssign_assigned st s l ls hstack
    rw [List.map_cons, State.varOps]
    cases hop : st.varOp (.prefixAssign s) with
    | mk r st₁ =>
      rw [hop] at h
      cases r with
      | some msg => exact h
      | none =>
        obtain ⟨l', hs, -⟩ := h.stack
        exact h.trans hs (ih hs)

/-! ### Unwinding -/

/-- The text in which a scope has saved `OPTIND`. -/
def savedOptind (buffer : Text) : Localvar → Option Text
  | .options _ => none
  | .var name value _ =>
    if name = optindName then some ((value.map (Val.render buffer)).getD []) else none

theorem optindOf_nil : optindOf [] = .error (badnum []) := by decide

/-- The hook that a turn of the loop calls; where it is that of another name before a `=`, it
raises an error. -/
theorem poplocalvar_calls {lvp : Localvar} {vars' : Vars} (h : vars.Hooks)
    (hlvp : SavedFixed [lvp]) (hok : poplocalvar lvp vars = .ok vars') :
    (vars'.localvarStack = vars.localvarStack ∧ vars'.linenovar = vars.linenovar) ∧
      ((savedOptind vars.linenovar lvp = none ∧ (vars'.called = vars.called ∨
          ∃ f value, (f = .getoptsreset → value = []) ∧
            vars'.called = (f, value) :: vars.called)) ∨
        ∃ value, savedOptind vars.linenovar lvp = some value ∧
          vars'.called = (.getoptsreset, value) :: vars.called) := by
  cases lvp with
  | options aflag =>
    obtain rfl := Except.ok.inj hok
    exact ⟨⟨rfl, rfl⟩, .inl ⟨rfl, .inl rfl⟩⟩
  | var name value flags =>
    unfold poplocalvar at hok
    dsimp only at hok
    by_cases hname : name = optindName
    · subst hname
      obtain ⟨vp, hfind, -⟩ := h.fixed (by rw [hookOf_optind]; rfl : (hookOf optindName).isSome)
      have hfunc := (h.func hfind).trans hookOf_optind
      have hne : flags ≠ VFlags.vunset := by
        rintro rfl
        have := hlvp (List.mem_singleton_self _) (by rw [hookOf_optind]; rfl)
        simp at this
      simp only [hfind, if_neg hne] at hok
      obtain rfl := Except.ok.inj hok
      rw [hfunc]
      exact ⟨⟨rfl, rfl⟩, .inr ⟨(value.map (Val.render vars.linenovar)).getD [],
        by simp [savedOptind], rfl⟩⟩
    · have hnone : savedOptind vars.linenovar (.var name value flags) = none := if_neg hname
      cases hfind : vars.findvar name with
      | none =>
        simp only [hfind] at hok
        obtain rfl := Except.ok.inj hok
        exact ⟨⟨rfl, rfl⟩, .inl ⟨hnone, .inl rfl⟩⟩
      | some vp =>
        simp only [hfind] at hok
        split at hok
        case isTrue hunset =>
          have hno : hookOf name = none := by
            by_contra hne
            have := hlvp (List.mem_singleton_self _) (Option.isSome_iff_ne_none.2 hne)
            simp [hunset] at this
          have hfunc : vp.func = hookOf name := h.func hfind
          have hstore : (vars.store name
              { vp with flags := vp.flags &&& ~~~(VFlags.vstrfixed ||| VFlags.vreadonly) }).Hooks :=
            h.store hfunc (by simp [hno])
          obtain ⟨hstack, hbuffer, hcalled⟩ := setvar_calls hstore hok
          refine ⟨⟨hstack, hbuffer⟩, .inl ⟨hnone, ?_⟩⟩
          rcases hcalled with heq | ⟨f, -, heq⟩
          · exact .inl heq
          · exact .inr ⟨f, [], fun _ => rfl, heq⟩
        case isFalse =>
          obtain rfl := Except.ok.inj hok
          obtain ⟨hstack, hbuffer, hcalled⟩ := @callFunc_calls vars name value h vp hfind
          refine ⟨⟨hstack, hbuffer⟩, .inl ⟨hnone, ?_⟩⟩
          rcases hcalled with heq | ⟨f, hf, heq⟩
          · exact .inl heq
          · refine .inr ⟨f, _, ?_, heq⟩
            rintro rfl
            exact absurd (eq_optind_of_hookOf hf) hname

/-- What a turn of the loop does to all but the table. -/
structure Popped (st st' : State) (lvp : Localvar) : Prop where
  stack : st'.vars.localvarStack = st.vars.localvarStack
  buffer : st'.vars.linenovar = st.vars.linenovar
  other : savedOptind st.vars.linenovar lvp = none → st'.shellparam = st.shellparam
  optind : ∀ value, savedOptind st.vars.linenovar lvp = some value →
    getoptsreset value st.shellparam = .ok st'.shellparam

theorem poplocalvar_popped {lvp : Localvar} {h : SavedFixed [lvp]}
    (hok : st.poplocalvar lvp h = .ok st') : Popped st st' lvp := by
  unfold State.poplocalvar at hok
  split at hok
  case h_1 => cases hok
  case h_2 vars hpop =>
    obtain ⟨hvars, hcalls⟩ := settle_ok hok
    obtain ⟨⟨hstack, hbuffer⟩, hcase⟩ := poplocalvar_calls st.hooks h hpop
    refine ⟨by rw [hvars]; exact hstack, by rw [hvars]; exact hbuffer, ?_, ?_⟩
    · intro hnone
      rcases hcase with ⟨-, hcalled | ⟨f, value, hvalue, hcalled⟩⟩ | ⟨value, hvalue, -⟩
      · rw [hcalled, st.quiet] at hcalls
        exact (Except.ok.inj hcalls).symm
      · rw [hcalled, st.quiet] at hcalls
        by_cases hf : f = .getoptsreset
        · rw [hf, hvalue hf] at hcalls
          cases hcalls
        · rw [callHooks_noReset (by simp [NoReset, hf])] at hcalls
          exact (Except.ok.inj hcalls).symm
      · rw [hnone] at hvalue
        cases hvalue
    · intro value hvalue
      rcases hcase with ⟨hnone, -⟩ | ⟨value', hvalue', hcalled⟩
      · rw [hnone] at hvalue
        cases hvalue
      · obtain rfl := Option.some.inj (hvalue.symm.trans hvalue')
        rw [hcalled, st.quiet] at hcalls
        exact hcalls

/-- The hook is called with one value after the other. -/
def resets (values : List Text) (sp : Shparam) : Except Text Shparam :=
  values.foldlM (fun sp value => getoptsreset value sp) sp

/-- Nothing is left of a call of the hook after the next one. -/
theorem getoptsreset_twice {value value' : Text} {sp sp' sp'' : Shparam}
    (h : getoptsreset value sp = .ok sp') (h' : getoptsreset value' sp' = .ok sp'') :
    getoptsreset value' sp = .ok sp'' := by
  unfold getoptsreset at h h' ⊢
  cases hn : optindOf value with
  | error msg =>
    rw [hn] at h
    cases h
  | ok n =>
    rw [hn] at h
    cases h
    exact h'

theorem resets_last {values : List Text} {sp sp' : Shparam} (h : resets values sp = .ok sp') :
    (values = [] ∧ sp' = sp) ∨
      ∃ value, values.getLast? = some value ∧ getoptsreset value sp = .ok sp' := by
  induction values generalizing sp with
  | nil => exact .inl ⟨rfl, (Except.ok.inj h).symm⟩
  | cons value values ih =>
    right
    have hstep : (getoptsreset value sp >>= fun sp => resets values sp) = .ok sp' := h
    cases hreset : getoptsreset value sp with
    | error msg =>
      rw [hreset] at hstep
      cases hstep
    | ok sp₁ =>
      rw [hreset] at hstep
      rcases ih hstep with ⟨rfl, rfl⟩ | ⟨value', hlast, hreset'⟩
      · exact ⟨value, rfl, hreset⟩
      · refine ⟨value', ?_, getoptsreset_twice hreset hreset'⟩
        rw [List.getLast?_cons, hlast]
        rfl

theorem poplocalvarList_cons {lvp : Localvar} {next : List Localvar}
    (h : SavedFixed (lvp :: next)) (st : State) :
    st.poplocalvarList (lvp :: next) h = match st.poplocalvar lvp h.head with
      | .error msg => (some msg, st)
      | .ok st => st.poplocalvarList next h.tail := rfl

theorem poplocalvarList_resets {l : List Localvar} {h : SavedFixed l}
    (hok : st.poplocalvarList l h = (none, st')) :
    st'.vars.localvarStack = st.vars.localvarStack ∧
      st'.vars.linenovar = st.vars.linenovar ∧
      resets (l.filterMap (savedOptind st.vars.linenovar)) st.shellparam = .ok st'.shellparam := by
  induction l generalizing st with
  | nil =>
    cases hok
    exact ⟨rfl, rfl, rfl⟩
  | cons lvp next ih =>
    rw [poplocalvarList_cons] at hok
    split at hok
    case h_1 => cases hok
    case h_2 st₁ hpop =>
      obtain ⟨hstack, hbuffer, hother, hoptind⟩ := poplocalvar_popped hpop
      obtain ⟨hstack', hbuffer', hresets⟩ := ih hok
      refine ⟨hstack'.trans hstack, hbuffer'.trans hbuffer, ?_⟩
      rw [hbuffer] at hresets
      cases hsaved : savedOptind st.vars.linenovar lvp with
      | none =>
        rw [List.filterMap_cons_none hsaved, ← hother hsaved]
        exact hresets
      | some value =>
        rw [List.filterMap_cons_some hsaved]
        unfold resets
        rw [List.foldlM_cons, hoptind value hsaved]
        exact hresets

/-- The texts in which the `n` innermost scopes have saved `OPTIND`, the last saved first. -/
def State.saved (n : ℕ) (st : State) : List Text :=
  (st.vars.localvarStack.take n).flatten.filterMap (savedOptind st.vars.linenovar)

theorem popScopes_resets {n : ℕ} (hok : st.popScopes n = (none, st')) :
    resets (st.saved n) st.shellparam = .ok st'.shellparam := by
  induction n generalizing st with
  | zero =>
    cases hok
    rfl
  | succ n ih =>
    rw [State.popScopes] at hok
    split at hok
    case h_1 => cases hok
    case h_2 st₁ hpop =>
      have hrest := ih hok
      unfold State.poplocalvars at hpop
      split at hpop
      case h_1 hstack =>
        cases hpop
        unfold State.saved at hrest ⊢
        rw [hstack] at hrest ⊢
        simpa using hrest
      case h_2 ll next hstack =>
        obtain ⟨hstack', hbuffer, hll⟩ := @poplocalvarList_resets _ _ ll
          (st.hooks.saved (by rw [hstack]; exact List.mem_cons_self)) hpop
        unfold State.saved at hrest ⊢
        dsimp only at hstack' hbuffer hll
        rw [hstack', hbuffer] at hrest
        rw [hstack, List.take_succ_cons, List.flatten_cons, List.filterMap_append]
        unfold resets at hll hrest ⊢
        rw [List.foldlM_append, hll]
        exact hrest

theorem poplocalvarList_stack (l : List Localvar) (h : SavedFixed l) (st : State) :
    (st.poplocalvarList l h).2.vars.localvarStack = st.vars.localvarStack := by
  induction l generalizing st with
  | nil => rfl
  | cons lvp next ih =>
    rw [poplocalvarList_cons]
    split
    case h_1 => rfl
    case h_2 st₁ hpop => exact (ih h.tail st₁).trans (poplocalvar_popped hpop).stack

theorem poplocalvars_stack (st : State) :
    st.poplocalvars.2.vars.localvarStack = st.vars.localvarStack.drop 1 := by
  unfold State.poplocalvars
  split
  case h_1 hstack => rw [hstack, List.drop_nil]
  case h_2 ll next hstack =>
    exact (poplocalvarList_stack ll (st.hooks.saved (hstack ▸ List.mem_cons_self)) _).trans
      (congrArg (List.drop 1) hstack).symm

/-- The scopes that are left; an error leaves more of them. -/
theorem popScopes_stack (n : ℕ) (st : State) :
    ∃ k ≤ n, (st.popScopes n).2.vars.localvarStack = st.vars.localvarStack.drop k := by
  induction n generalizing st with
  | zero => exact ⟨0, le_rfl, rfl⟩
  | succ n ih =>
    have hpop := poplocalvars_stack st
    rw [State.popScopes]
    split
    case h_1 msg st₁ heq =>
      rw [heq] at hpop
      exact ⟨1, by omega, hpop⟩
    case h_2 st₁ heq =>
      rw [heq] at hpop
      obtain ⟨k, hk, hstack⟩ := ih st₁
      refine ⟨k + 1, by omega, ?_⟩
      rw [hstack, hpop, List.drop_drop]
      congr 1
      omega

end

/-! ### Commands -/

theorem Grows.push (s : List (List Localvar)) (l : List Localvar) : Grows s (l :: s) := by
  cases s with
  | nil => trivial
  | cons m ls => exact ⟨[l], [], rfl⟩

theorem Grows.drop {s s' : List (List Localvar)} {k : ℕ} (h : Grows s s')
    (hk : k ≤ s'.length - s.length) : Grows s (s'.drop k) := by
  cases s with
  | nil => trivial
  | cons l ls =>
    obtain ⟨scopes, l', rfl⟩ := h
    refine ⟨scopes.drop k, l', List.drop_append_of_le_length ?_⟩
    simp at hk
    omega

theorem unwound_grows {s : List (List Localvar)} {r : End × State}
    (h : Grows s r.2.vars.localvarStack) :
    Grows s (unwound s.length r).2.vars.localvarStack := by
  obtain ⟨k, hk, hstack⟩ := popScopes_stack (r.2.depth - s.length) r.2
  have hdrop := h.drop hk
  rw [← hstack] at hdrop
  unfold unwound State.unwindlocalvars
  split
  case h_1 heq =>
    rw [heq] at hdrop
    exact hdrop
  case h_2 heq =>
    rw [heq] at hdrop
    exact hdrop

/-- The scope of a call is on top of those of its caller. -/
theorem callBody_grows {body : State → End × State} {assigns args : List Text} {st : State}
    (hbody : ∀ st, Grows st.vars.localvarStack (body st).2.vars.localvarStack) :
    ∃ l, Assigned st.pushlocalvars (st.pushlocalvars.varOps (assigns.map .prefixAssign)).2 []
        st.vars.localvarStack ∧
      (st.pushlocalvars.varOps (assigns.map .prefixAssign)).2.vars.localvarStack =
        l :: st.vars.localvarStack ∧
      Grows (l :: st.vars.localvarStack)
        (callBody body assigns args st).2.vars.localvarStack := by
  have h := @prefixAssigns_assigned st.pushlocalvars assigns [] st.vars.localvarStack rfl
  obtain ⟨l, hstack, -⟩ := h.stack
  rw [List.append_nil] at hstack
  refine ⟨l, h, hstack, ?_⟩
  unfold callBody
  split
  case h_1 heq =>
    rw [heq] at hstack
    rw [← hstack]
    exact .refl _
  case h_2 st₁ heq =>
    rw [heq] at hstack
    rw [← hstack]
    exact hbody (st₁.withParam (setparam args))

theorem varOps_grows {ops : List VarOp} {st : State}
    (hops : ∀ op ∈ ops, op ≠ .pushlocalvars ∧ op ≠ .poplocalvars ∧ ∀ s, op ≠ .prefixAssign s) :
    Grows st.vars.localvarStack (st.varOps ops).2.vars.localvarStack := by
  induction ops generalizing st with
  | nil => exact .refl _
  | cons op ops ih =>
    have h := @varOp_grows st op (hops op (by simp))
    rw [State.varOps]
    split
    case h_1 st₁ heq =>
      rw [heq] at h
      exact h
    case h_2 st₁ heq =>
      rw [heq] at h
      exact h.trans (ih fun op hop => hops op (by simp [hop]))

theorem getoptscmd_grows (optstr optvar : Text) (args : List Text) (st : State) :
    Grows st.vars.localvarStack (getoptscmd optstr optvar args st).2.vars.localvarStack := by
  have hgetopts : ∀ optbase (st : State), Grows st.vars.localvarStack
      (getopts optstr optvar optbase st).2.vars.localvarStack := by
    intro optbase st
    unfold getopts
    dsimp only
    generalize nextOpt optstr optbase st.shellparam.optind.toNat st.shellparam.optoff = o
    have hops : ∀ op ∈ optVars optvar o, op ≠ .pushlocalvars ∧ op ≠ .poplocalvars ∧
        ∀ s, op ≠ .prefixAssign s := by
      intro op hop
      rcases List.mem_append.1 hop with hop | hop
      · split at hop
        · cases hop
        all_goals
          obtain rfl := List.mem_singleton.1 hop
          simp
      · simp only [List.mem_cons, List.not_mem_nil, or_false] at hop
        rcases hop with rfl | rfl <;> simp
    have h := @varOps_grows (optVars optvar o)
      (st.withParam { st.shellparam with optind := -1 }) hops
    split
    case h_1 heq =>
      rw [heq] at h
      exact h
    case h_2 heq =>
      rw [heq] at h
      exact h
  have hfit : ∀ limit, (fitOptind limit st).vars = st.vars := by
    intro limit
    unfold fitOptind
    split <;> rfl
  unfold getoptscmd
  split
  · rw [← hfit (st.shellparam.nparam + 1)]
    exact hgetopts _ _
  · rw [← hfit (args.length + 1)]
    exact hgetopts _ _

mutual

/-- A command leaves the scopes that were there, and may have saved more in the innermost. -/
theorem exec_grows (c : Cmd) (st : State) :
    Grows st.vars.localvarStack (exec c st).2.vars.localvarStack := by
  cases c with
  | set argv => exact .refl _
  | shift n =>
    change Grows _ (st.shiftcmd n).2.vars.localvarStack
    unfold State.shiftcmd
    dsimp only
    split <;> exact .refl _
  | getopts optstr optvar args => exact getoptscmd_grows optstr optvar args st
  | var op hop => exact varOp_grows hop
  | call assigns args body =>
    obtain ⟨l, -, -, hgrows⟩ := @callBody_grows (execList body) assigns args st (execList_grows body)
    have h := (Grows.push st.vars.localvarStack l).trans hgrows
    rw [exec]
    split
    · exact h
    · exact unwound_grows h
  | caught body =>
    have h := (Grows.push st.vars.localvarStack []).trans (execList_grows body st.pushlocalvars)
    rw [exec]
    exact unwound_grows h
  | error => exact .refl _
  | return_ => exact .refl _

theorem execList_grows (cs : List Cmd) (st : State) :
    Grows st.vars.localvarStack (execList cs st).2.vars.localvarStack := by
  cases cs with
  | nil => exact .refl _
  | cons c cs =>
    have h := exec_grows c st
    rw [execList]
    split
    · exact h.trans (execList_grows cs _)
    · exact h

end

/-! ### What a call leaves -/

/-- `getopts` stands where the hook puts it for this value: at the start of a word. -/
def StandsAt (value : Text) (sp : Shparam) : Prop :=
  ∃ n, optindOf value = .ok n ∧ sp.optind = n ∧ sp.optoff = -1

/-- Where the hook is called with these values, it leaves everything as it is. -/
def Settled (values : List Text) (sp : Shparam) : Prop :=
  ∀ value, values.getLast? = some value → StandsAt value sp

theorem getoptsreset_eq_iff {value : Text} {sp sp₁ sp' : Shparam} (hsame : SameParams sp sp₁)
    (h : getoptsreset value sp₁ = .ok sp') : sp' = sp ↔ StandsAt value sp := by
  unfold getoptsreset at h
  cases hn : optindOf value with
  | error msg =>
    rw [hn] at h
    cases h
  | ok n =>
    rw [hn] at h
    cases h
    obtain ⟨hnparam, hp⟩ := hsame
    rw [hnparam, hp]
    constructor
    · intro heq
      rw [← heq]
      exact ⟨n, hn, rfl, rfl⟩
    · rintro ⟨m, hm, hind, hoff⟩
      obtain rfl := Except.ok.inj (hn.symm.trans hm)
      rw [← hind, ← hoff]

section
variable {assigns args : List Text} {body : List Cmd} {st st' : State}

/-- A variable `OPTIND` that the scope of the call has saved is among those that are popped. -/
theorem saved_ne_nil {l : List Localvar} {n : ℕ} {s : List (List Localvar)}
    (hgrows : Grows (l :: s) st.vars.localvarStack) (hn : st.depth - s.length ≤ n)
    (hl : ∃ lvp ∈ l, savedName lvp = some optindName) : st.saved n ≠ [] := by
  obtain ⟨lvp, hmem, hname⟩ := hl
  obtain ⟨scopes, l', hstack⟩ := hgrows
  cases lvp with
  | options aflag => cases hname
  | var name value flags =>
    obtain rfl := Option.some.inj hname
    have hlvp : Localvar.var optindName value flags ∈ (st.vars.localvarStack.take n).flatten := by
      refine List.mem_flatten.2 ⟨l' ++ l, ?_, List.mem_append_right _ hmem⟩
      have hlen : scopes.length + 1 ≤ n := by
        unfold State.depth at hn
        rw [hstack] at hn
        simp at hn
        omega
      have htake := List.take_subset_take_left st.vars.localvarStack hlen
      apply htake
      have hsplit : st.vars.localvarStack = (scopes ++ [l' ++ l]) ++ s := by
        rw [hstack, List.append_assoc, List.singleton_append]
      rw [hsplit, List.take_left' (by simp), List.mem_append]
      exact .inr (List.mem_singleton_self _)
    apply List.ne_nil_of_mem
    exact List.mem_filterMap.2 ⟨_, hlvp, by rw [savedOptind, if_pos rfl]⟩

/-- The parameters of the caller, when the scopes above its own are unwound. -/
theorem callBody_params {n : ℕ}
    (hn : (callBody (execList body) assigns args st).2.depth - st.depth ≤ n)
    (hpop : (callBody (execList body) assigns args st).2.popScopes n = (none, st')) :
    st'.shellparam = st.shellparam ↔
      Settled ((callBody (execList body) assigns args st).2.saved n) st.shellparam := by
  obtain ⟨l, hassigned, hstack, hgrows⟩ :=
    @callBody_grows (execList body) assigns args st (execList_grows body)
  have hparam : (callBody (execList body) assigns args st).2.shellparam =
      (st.pushlocalvars.varOps (assigns.map .prefixAssign)).2.shellparam := by
    unfold callBody
    split
    case h_1 heq => rw [heq]
    case h_2 heq =>
      rw [heq]
      rfl
  have hresets := popScopes_resets hpop
  rw [hparam] at hresets
  rcases resets_last hresets with ⟨hnil, heq⟩ | ⟨value, hlast, hreset⟩
  · have hsame : (st.pushlocalvars.varOps (assigns.map .prefixAssign)).2.shellparam =
        st.shellparam := by
      obtain ⟨l', hstack', hcase⟩ := hassigned.stack
      rcases hcase with hsame | hsaved
      · exact hsame
      · rw [List.append_nil] at hstack'
        obtain rfl := (List.cons.inj (hstack.symm.trans hstack')).1
        exact absurd hnil (saved_ne_nil hgrows hn hsaved)
    rw [heq, hsame, hnil]
    exact iff_of_true rfl fun value hvalue => by cases hvalue
  · have hparams : SameParams st.shellparam
        (st.pushlocalvars.varOps (assigns.map .prefixAssign)).2.shellparam := hassigned.params
    rw [getoptsreset_eq_iff hparams hreset]
    constructor
    · intro h value' hvalue'
      obtain rfl := Option.some.inj (hlast.symm.trans hvalue')
      exact h
    · intro h
      exact h value hlast

/-- After a call, whether it returns or its error is caught, the parameters and the position of
`getopts` are those before it if and only if the scope of the call has not saved `OPTIND`, or
`getopts` stands at the start of a word, at the number that was saved first. -/
theorem call_keeps_iff (assigns args : List Text) (body : List Cmd) (st : State) :
    (∀ e st', exec (.call assigns args body) st = (e, st') → e ≠ .raise →
      (st'.shellparam = st.shellparam ↔
        Settled ((callBody (execList body) assigns args st).2.saved
          ((callBody (execList body) assigns args st).2.depth - st.depth)) st.shellparam)) ∧
    ∀ e st', exec (.caught [.call assigns args body]) st = (e, st') → e ≠ .raise →
      (callBody (execList body) assigns args st.pushlocalvars).1 = .raise →
      (st'.shellparam = st.shellparam ↔
        Settled ((callBody (execList body) assigns args st.pushlocalvars).2.saved
          ((callBody (execList body) assigns args st.pushlocalvars).2.depth - st.depth))
          st.shellparam) := by
  constructor
  · intro e st' hexec he
    rw [exec] at hexec
    split at hexec
    case isTrue hraise =>
      rw [hexec] at hraise
      exact absurd hraise he
    case isFalse =>
      unfold unwound State.unwindlocalvars at hexec
      split at hexec
      case h_1 =>
        cases hexec
        exact absurd rfl he
      case h_2 hpop =>
        cases hexec
        exact @callBody_params assigns args body st _ _ le_rfl hpop
  · intro e st' hexec he hraise
    rw [exec] at hexec
    have hlist : execList [.call assigns args body] st.pushlocalvars =
        callBody (execList body) assigns args st.pushlocalvars := by
      rw [execList, exec, if_pos hraise, if_neg (by rw [hraise]; decide)]
    rw [hlist] at hexec
    unfold unwound State.unwindlocalvars at hexec
    split at hexec
    case h_1 =>
      cases hexec
      exact absurd rfl he
    case h_2 hpop =>
      cases hexec
      have hle : (callBody (execList body) assigns args st.pushlocalvars).2.depth -
          st.pushlocalvars.depth ≤
            (callBody (execList body) assigns args st.pushlocalvars).2.depth - st.depth := by
        have hdepth : st.pushlocalvars.depth = st.depth + 1 := rfl
        omega
      exact @callBody_params assigns args body st.pushlocalvars _ _ hle hpop

end

/-- A shell that has just started, with these parameters. -/
def start (args : List Text) : State where
  vars := { initVars false [] "1".toList with called := [] }
  shellparam := setparam args
  hooks := (Vars.initVars_hooks false [] "1".toList).same rfl rfl
  quiet := rfl

/-- After `getopts abc o`, in the middle of the word `-abc`. -/
def inWord : State :=
  (getoptscmd "abc".toList "o".toList [] (start ["-abc".toList, "d".toList])).2

/-- `f() { set -- -x; getopts x o; OPTIND=7; command eval 'a=1 g'; shift; return; }; f y`, where
`g` ends by an error -/
def busyBody : List Cmd :=
  [.set ["-x".toList], .getopts "x".toList "o".toList [],
    .var (.setvareq "OPTIND=7".toList VFlags.zero) (by simp),
    .caught [.call ["a=1".toList] [] [.error]], .shift 1, .return_]

theorem call_keeps_busy :
    (exec (.call [] ["y".toList] busyBody) inWord).2.shellparam = inWord.shellparam ∧
      inWord.shellparam.optoff = 2 := by
  refine ⟨?_, by decide +kernel⟩
  refine ((call_keeps_iff [] ["y".toList] busyBody inWord).1 _ _
    (@Prod.mk.eta _ _ (exec (.call [] ["y".toList] busyBody) inWord)).symm (by decide +kernel)).2 ?_
  have hnone : (((callBody (execList busyBody) [] ["y".toList] inWord).2.saved
      ((callBody (execList busyBody) [] ["y".toList] inWord).2.depth - inWord.depth)).getLast?) =
      none := by decide +kernel
  intro value hvalue
  rw [hnone] at hvalue
  cases hvalue

/-- `f() { local OPTIND; }; f`: the rest of the word is lost. -/
theorem call_not_keeps :
    (exec (.call [] [] [.var (.localArg "OPTIND".toList) (by simp)]) inWord).2.shellparam ≠
        inWord.shellparam ∧
      (getoptscmd "abc".toList "o".toList [] inWord).1 = .ok false ∧
      (getoptscmd "abc".toList "o".toList []
        (exec (.call [] [] [.var (.localArg "OPTIND".toList) (by simp)]) inWord).2).1 =
          .ok true := by
  decide +kernel

end Bootsh.Options
