import Bootsh.Arith.Correct
import Bootsh.Var.Assign

/-!
Operands that an expression does not select: the branch of `?:` that is not taken, and
the right operand of `&&` or `||` where the left one decides.
-/
namespace Bootsh.Arith

/-- The names in an expression, read or assigned. -/
def Expr.names : Expr → List Text
  | .num _ => []
  | .var x => [x]
  | .plus e | .neg e | .not e | .bnot e => e.names
  | .bin _ a b | .and a b | .or a b => a.names ++ b.names
  | .cond a b c => a.names ++ (b.names ++ c.names)
  | .assign x _ e => x :: e.names

/-- An expression with one sub-expression left out. -/
inductive Context where
  | hole
  | plus (c : Context)
  | neg (c : Context)
  | not (c : Context)
  | bnot (c : Context)
  | binLeft (op : Binop) (c : Context) (b : Expr)
  | binRight (op : Binop) (a : Expr) (c : Context)
  | andLeft (c : Context) (b : Expr)
  | andRight (a : Expr) (c : Context)
  | orLeft (c : Context) (b : Expr)
  | orRight (a : Expr) (c : Context)
  | condIf (c : Context) (a b : Expr)
  | condThen (a : Expr) (c : Context) (b : Expr)
  | condElse (a b : Expr) (c : Context)
  | assign (x : Text) (op : Option Binop) (c : Context)

namespace Context

def fill (e : Expr) : Context → Expr
  | hole => e
  | plus c => .plus (c.fill e)
  | neg c => .neg (c.fill e)
  | not c => .not (c.fill e)
  | bnot c => .bnot (c.fill e)
  | binLeft op c b => .bin op (c.fill e) b
  | binRight op a c => .bin op a (c.fill e)
  | andLeft c b => .and (c.fill e) b
  | andRight a c => .and a (c.fill e)
  | orLeft c b => .or (c.fill e) b
  | orRight a c => .or a (c.fill e)
  | condIf c a b => .cond (c.fill e) a b
  | condThen a c b => .cond a (c.fill e) b
  | condElse a b c => .cond a b (c.fill e)
  | assign x op c => .assign x op (c.fill e)

/-- The names outside the hole. -/
def names : Context → List Text
  | hole => []
  | plus c | neg c | not c | bnot c => c.names
  | binLeft _ c a | binRight _ a c | andLeft c a | andRight a c | orLeft c a | orRight a c =>
    a.names ++ c.names
  | condIf c a b | condThen a c b | condElse a b c => a.names ++ (b.names ++ c.names)
  | assign x _ c => x :: c.names

/-- The hole, or an operand it lies in, is not selected. -/
def Unselected {σ : Type} (ops : VarOps σ) (s : Text) : Context → σ → Prop
  | hole, _ => False
  | plus c, vars | neg c, vars | not c, vars | bnot c, vars | assign _ _ c, vars
  | binLeft _ c _, vars | andLeft c _, vars | orLeft c _, vars | condIf c _ _, vars =>
    c.Unselected ops s vars
  | binRight _ a c, vars =>
    ∀ va vars', eval ops s a vars = .ok (va, vars') → c.Unselected ops s vars'
  | andRight a c, vars | condThen a c _, vars =>
    ∀ va vars', eval ops s a vars = .ok (va, vars') → va = 0 ∨ c.Unselected ops s vars'
  | orRight a c, vars | condElse a _ c, vars =>
    ∀ va vars', eval ops s a vars = .ok (va, vars') → va ≠ 0 ∨ c.Unselected ops s vars'

end Context

/-! ### Equal outcomes -/

/-- The same error, of which the text may quote the whole expression. -/
inductive SameStop (s s' : Text) : Stop → Stop → Prop
  | same (stop : Stop) : SameStop s s' stop stop
  | quoted (msg : String) : SameStop s s' (yyerror s msg) (yyerror s' msg)

/-- The same value and related final variables, or the same error. -/
inductive SameOutcome {σ τ : Type} (R : σ → τ → Prop) (s s' : Text) :
    Except Stop (IntMax × σ) → Except Stop (IntMax × τ) → Prop
  | ok {v : IntMax} {vars : σ} {vars' : τ} : R vars vars' →
      SameOutcome R s s' (.ok (v, vars)) (.ok (v, vars'))
  | error {stop stop' : Stop} : SameStop s s' stop stop' →
      SameOutcome R s s' (.error stop) (.error stop')

/-- Two stores that do the same on related variables, for the names in `N`. -/
structure Simulates {σ τ : Type} (R : σ → τ → Prop) (N : Set Text) (ops : VarOps σ)
    (ops' : VarOps τ) : Prop where
  lookupvar : ∀ {x vars vars'}, x ∈ N → R vars vars' → ops.lookupvar x vars = ops'.lookupvar x vars'
  setvar : ∀ {x val vars vars'}, x ∈ N → R vars vars' →
    (∃ w w', ops.setvar x val vars = .ok w ∧ ops'.setvar x val vars' = .ok w' ∧ R w w') ∨
      ∃ msg, ops.setvar x val vars = .error msg ∧ ops'.setvar x val vars' = .error msg

theorem Simulates.refl {σ : Type} (N : Set Text) (ops : VarOps σ) : Simulates Eq N ops ops := by
  constructor
  · rintro x vars _ - rfl
    rfl
  · rintro x val vars _ - rfl
    cases h : ops.setvar x val vars with
    | ok w => exact .inl ⟨w, w, rfl, rfl, rfl⟩
    | error msg => exact .inr ⟨msg, rfl, rfl⟩

section
variable {σ τ : Type} {R : σ → τ → Prop} {s s' : Text} {ops : VarOps σ} {ops' : VarOps τ}
  {a a' b b' c c' e e' : Expr} {vars : σ} {vars' : τ}

theorem SameOutcome.bind {r : Except Stop (IntMax × σ)} {r' : Except Stop (IntMax × τ)}
    {f : IntMax × σ → Except Stop (IntMax × σ)} {f' : IntMax × τ → Except Stop (IntMax × τ)}
    (h : SameOutcome R s s' r r')
    (hf : ∀ v w w', r = .ok (v, w) → R w w' → SameOutcome R s s' (f (v, w)) (f' (v, w'))) :
    SameOutcome R s s' (r >>= f) (r' >>= f') := by
  cases h with
  | ok hR => exact hf _ _ _ rfl hR
  | error hs => exact .error hs

theorem SameOutcome.liftError {α : Type} (x : Except Text α) {f : α → Except Stop (IntMax × σ)}
    {f' : α → Except Stop (IntMax × τ)} (hf : ∀ v, SameOutcome R s s' (f v) (f' v)) :
    SameOutcome R s s' (Arith.liftError x >>= f) (Arith.liftError x >>= f') := by
  cases x with
  | ok v => exact hf v
  | error msg => exact .error (.same _)

theorem SameOutcome.applyBinop (op : Binop) (va vb : IntMax)
    {f : IntMax → Except Stop (IntMax × σ)} {f' : IntMax → Except Stop (IntMax × τ)}
    (hf : ∀ v, SameOutcome R s s' (f v) (f' v)) :
    SameOutcome R s s' (Arith.applyBinop s op va vb >>= f) (Arith.applyBinop s' op va vb >>= f') := by
  unfold Arith.applyBinop
  split
  · exact .error (.quoted _)
  · split
    · exact hf _
    · exact .error (.same _)

/-! ### The operators keep equal outcomes equal -/

theorem SameOutcome.value (g : IntMax → IntMax)
    (h : SameOutcome R s s' (eval ops s e vars) (eval ops' s' e' vars')) :
    SameOutcome R s s' (eval ops s e vars >>= fun p => pure (g p.1, p.2))
      (eval ops' s' e' vars' >>= fun p => pure (g p.1, p.2)) :=
  h.bind fun _ _ _ _ hR => .ok hR

theorem SameOutcome.bin (op : Binop)
    (ha : SameOutcome R s s' (eval ops s a vars) (eval ops' s' a' vars'))
    (hb : ∀ va w w', eval ops s a vars = .ok (va, w) → R w w' →
      SameOutcome R s s' (eval ops s b w) (eval ops' s' b' w')) :
    SameOutcome R s s' (eval ops s (.bin op a b) vars) (eval ops' s' (.bin op a' b') vars') := by
  apply ha.bind
  intro va w w' hva hR
  apply (hb va w w' hva hR).bind
  intro vb w₂ w₂' _ hR₂
  exact SameOutcome.applyBinop op va vb fun v => .ok hR₂

theorem SameOutcome.and
    (ha : SameOutcome R s s' (eval ops s a vars) (eval ops' s' a' vars'))
    (hb : ∀ va w w', eval ops s a vars = .ok (va, w) → R w w' → va ≠ 0 →
      SameOutcome R s s' (eval ops s b w) (eval ops' s' b' w')) :
    SameOutcome R s s' (eval ops s (.and a b) vars) (eval ops' s' (.and a' b') vars') := by
  apply ha.bind
  intro va w w' hva hR
  dsimp only
  split
  case isTrue => exact .ok hR
  case isFalse hne =>
    apply (hb va w w' hva hR (by simpa using hne)).bind
    intro vb w₂ w₂' _ hR₂
    exact .ok hR₂

theorem SameOutcome.or
    (ha : SameOutcome R s s' (eval ops s a vars) (eval ops' s' a' vars'))
    (hb : ∀ va w w', eval ops s a vars = .ok (va, w) → R w w' → va = 0 →
      SameOutcome R s s' (eval ops s b w) (eval ops' s' b' w')) :
    SameOutcome R s s' (eval ops s (.or a b) vars) (eval ops' s' (.or a' b') vars') := by
  apply ha.bind
  intro va w w' hva hR
  dsimp only
  split
  case isTrue => exact .ok hR
  case isFalse hz =>
    apply (hb va w w' hva hR (by simpa using hz)).bind
    intro vb w₂ w₂' _ hR₂
    exact .ok hR₂

theorem SameOutcome.cond
    (ha : SameOutcome R s s' (eval ops s a vars) (eval ops' s' a' vars'))
    (hb : ∀ va w w', eval ops s a vars = .ok (va, w) → R w w' → va ≠ 0 →
      SameOutcome R s s' (eval ops s b w) (eval ops' s' b' w'))
    (hc : ∀ va w w', eval ops s a vars = .ok (va, w) → R w w' → va = 0 →
      SameOutcome R s s' (eval ops s c w) (eval ops' s' c' w')) :
    SameOutcome R s s' (eval ops s (.cond a b c) vars) (eval ops' s' (.cond a' b' c') vars') := by
  apply ha.bind
  intro va w w' hva hR
  dsimp only
  split
  case isTrue hne => exact hb va w w' hva hR (by simpa using hne)
  case isFalse hz => exact hc va w w' hva hR (by simpa using hz)

variable {N : Set Text} {x : Text}

theorem Simulates.lookupvarint (hops : Simulates R N ops ops') (hx : x ∈ N) (hR : R vars vars') :
    ops.lookupvarint x vars = ops'.lookupvarint x vars' := by
  rw [VarOps.lookupvarint, hops.lookupvar hx hR, VarOps.lookupvarint]

theorem Simulates.setvarint (hops : Simulates R N ops ops') (hx : x ∈ N) (hR : R vars vars')
    (v : IntMax) : SameOutcome R s s' (Arith.liftError (ops.setvarint x v vars))
      (Arith.liftError (ops'.setvarint x v vars')) := by
  rw [VarOps.setvarint, VarOps.setvarint]
  rcases hops.setvar hx hR with ⟨w, w', h, h', hR'⟩ | ⟨msg, h, h'⟩
  · rw [h, h']
    exact .ok hR'
  · rw [h, h']
    exact .error (.same _)

theorem SameOutcome.assign (hops : Simulates R N ops ops') (hx : x ∈ N) (op : Option Binop)
    (he : SameOutcome R s s' (eval ops s e vars) (eval ops' s' e' vars')) :
    SameOutcome R s s' (eval ops s (.assign x op e) vars) (eval ops' s' (.assign x op e') vars') := by
  apply he.bind
  intro v w w' _ hR
  cases op with
  | none => exact hops.setvarint hx hR v
  | some op =>
    dsimp only
    rw [hops.lookupvarint hx hR]
    apply SameOutcome.liftError
    intro old
    apply SameOutcome.applyBinop
    intro v
    exact hops.setvarint hx hR v

/-- An expression does the same in two stores that agree on its names. -/
theorem eval_same (hops : Simulates R N ops ops') (hN : ∀ x ∈ e.names, x ∈ N) (hR : R vars vars') :
    SameOutcome R s s' (eval ops s e vars) (eval ops' s' e vars') := by
  induction e generalizing vars vars' with
  | num n => exact .ok hR
  | var x =>
    rw [eval, eval, hops.lookupvarint (hN x (List.mem_singleton_self x)) hR]
    exact SameOutcome.liftError _ fun v => .ok hR
  | plus e ih => exact ih hN hR
  | neg e ih => exact (ih hN hR).value (fun v => -v)
  | not e ih => exact (ih hN hR).value fun v => ofBool (v == 0)
  | bnot e ih => exact (ih hN hR).value (fun v => ~~~v)
  | bin op a b iha ihb =>
    simp only [Expr.names, List.mem_append, or_imp, forall_and] at hN
    exact (iha hN.1 hR).bin op fun _ _ _ _ hR' => ihb hN.2 hR'
  | and a b iha ihb =>
    simp only [Expr.names, List.mem_append, or_imp, forall_and] at hN
    exact (iha hN.1 hR).and fun _ _ _ _ hR' _ => ihb hN.2 hR'
  | or a b iha ihb =>
    simp only [Expr.names, List.mem_append, or_imp, forall_and] at hN
    exact (iha hN.1 hR).or fun _ _ _ _ hR' _ => ihb hN.2 hR'
  | cond a b c iha ihb ihc =>
    simp only [Expr.names, List.mem_append, or_imp, forall_and] at hN
    exact (iha hN.1 hR).cond (fun _ _ _ _ hR' _ => ihb hN.2.1 hR')
      fun _ _ _ _ hR' _ => ihc hN.2.2 hR'
  | assign x op e ih =>
    simp only [Expr.names, List.mem_cons, forall_eq_or_imp] at hN
    exact (ih hN.2 hR).assign hops hN.1 op

/-- Where the hole is not selected, what fills it makes no difference, and neither do the
variables of no other part. -/
theorem fill_same {k : Context} (hops : Simulates R N ops ops') (hN : ∀ x ∈ k.names, x ∈ N)
    (hun : k.Unselected ops s vars) (hR : R vars vars') :
    SameOutcome R s s' (eval ops s (k.fill e) vars) (eval ops' s' (k.fill e') vars') := by
  induction k generalizing vars vars' with
  | hole => exact hun.elim
  | plus k ih => exact ih hN hun hR
  | neg k ih => exact (ih hN hun hR).value (fun v => -v)
  | not k ih => exact (ih hN hun hR).value fun v => ofBool (v == 0)
  | bnot k ih => exact (ih hN hun hR).value (fun v => ~~~v)
  | binLeft op k b ih =>
    simp only [Context.names, List.mem_append, or_imp, forall_and] at hN
    exact (ih hN.2 hun hR).bin op fun _ _ _ _ hR' => eval_same hops hN.1 hR'
  | binRight op a k ih =>
    simp only [Context.names, List.mem_append, or_imp, forall_and] at hN
    exact (eval_same hops hN.1 hR).bin op fun va w w' hva hR' => ih hN.2 (hun va w hva) hR'
  | andLeft k b ih =>
    simp only [Context.names, List.mem_append, or_imp, forall_and] at hN
    exact (ih hN.2 hun hR).and fun _ _ _ _ hR' _ => eval_same hops hN.1 hR'
  | andRight a k ih =>
    simp only [Context.names, List.mem_append, or_imp, forall_and] at hN
    exact (eval_same hops hN.1 hR).and fun va w w' hva hR' hne =>
      ih hN.2 ((hun va w hva).resolve_left hne) hR'
  | orLeft k b ih =>
    simp only [Context.names, List.mem_append, or_imp, forall_and] at hN
    exact (ih hN.2 hun hR).or fun _ _ _ _ hR' _ => eval_same hops hN.1 hR'
  | orRight a k ih =>
    simp only [Context.names, List.mem_append, or_imp, forall_and] at hN
    exact (eval_same hops hN.1 hR).or fun va w w' hva hR' hz =>
      ih hN.2 ((hun va w hva).resolve_left (not_not.2 hz)) hR'
  | condIf k a b ih =>
    simp only [Context.names, List.mem_append, or_imp, forall_and] at hN
    exact (ih hN.2.2 hun hR).cond (fun _ _ _ _ hR' _ => eval_same hops hN.1 hR')
      fun _ _ _ _ hR' _ => eval_same hops hN.2.1 hR'
  | condThen a k b ih =>
    simp only [Context.names, List.mem_append, or_imp, forall_and] at hN
    exact (eval_same hops hN.1 hR).cond
      (fun va w w' hva hR' hne => ih hN.2.2 ((hun va w hva).resolve_left hne) hR')
      fun _ _ _ _ hR' _ => eval_same hops hN.2.1 hR'
  | condElse a b k ih =>
    simp only [Context.names, List.mem_append, or_imp, forall_and] at hN
    exact (eval_same hops hN.1 hR).cond (fun _ _ _ _ hR' _ => eval_same hops hN.2.1 hR')
      fun va w w' hva hR' hz => ih hN.2.2 ((hun va w hva).resolve_left (not_not.2 hz)) hR'
  | assign x op k ih =>
    simp only [Context.names, List.mem_cons, forall_eq_or_imp] at hN
    exact (ih hN.2 hun hR).assign hops hN.1 op

end

/-! ### The shell's variables -/

/-- The variables as arithmetic uses them, with the flags of `setvarint`. The buffer of
`LINENO`, which a lookup also brings up to date, is seen by `listvars` only. -/
def shellVars : VarOps Vars where
  lookupvar name st := (Bootsh.lookupvar name st).1
  setvar name val st := Bootsh.setvar name (some val) VFlags.zero st

/-- Two stores that differ in variables outside `N` only. -/
structure SameOn (N : Set Text) (st st' : Vars) : Prop where
  findvar : ∀ {x}, x ∈ N → st.findvar x = st'.findvar x
  localvarStack : st.localvarStack = st'.localvarStack
  aflag : st.aflag = st'.aflag
  lineno : st.lineno = st'.lineno
  linenovar : st.linenovar = st'.linenovar
  called : st.called = st'.called

/-- The variables outside `N` are as in `st`. -/
def KeptOff (N : Set Text) (st w : Vars) : Prop := ∀ x ∉ N, w.findvar x = st.findvar x

/-- Stores that came from `st` and `st'` by the same changes, none of them outside `N`. -/
structure SameChanges (N : Set Text) (st st' w w' : Vars) : Prop where
  same : SameOn N w w'
  kept : KeptOff N st w
  kept' : KeptOff N st' w'

section
variable {N : Set Text} {st st' w w' : Vars} {name : Text}

theorem SameOn.callFunc (h : SameOn N w w') (func : Option VarFunc) (value : Option Val) :
    SameOn N (w.callFunc func value) (w'.callFunc func value) := by
  cases func with
  | none => exact h
  | some f =>
    refine ⟨h.findvar, h.localvarStack, h.aflag, h.lineno, h.linenovar, ?_⟩
    simp only [Vars.callFunc, h.linenovar, h.called]

theorem SameOn.store (h : SameOn N w w') (vp : Var) :
    SameOn N (w.store name vp) (w'.store name vp) := by
  refine ⟨?_, h.localvarStack, h.aflag, h.lineno, h.linenovar, h.called⟩
  intro x hx
  rw [Vars.findvar_store, Vars.findvar_store, h.findvar hx]

theorem SameOn.delete (h : SameOn N w w') : SameOn N (w.delete name) (w'.delete name) := by
  refine ⟨?_, h.localvarStack, h.aflag, h.lineno, h.linenovar, h.called⟩
  intro x hx
  rw [Vars.findvar_delete, Vars.findvar_delete, h.findvar hx]

theorem KeptOff.callFunc (h : KeptOff N st w) (func : Option VarFunc) (value : Option Val) :
    KeptOff N st (w.callFunc func value) := by
  intro x hx
  rw [Vars.findvar, Vars.callFunc_vartab]
  exact h x hx

theorem KeptOff.store (h : KeptOff N st w) (hname : name ∈ N) (vp : Var) :
    KeptOff N st (w.store name vp) := by
  intro x hx
  have hne : x ≠ name := fun heq => hx (heq ▸ hname)
  rw [Vars.findvar_store, if_neg hne]
  exact h x hx

theorem KeptOff.delete (h : KeptOff N st w) (hname : name ∈ N) :
    KeptOff N st (w.delete name) := by
  intro x hx
  have hne : x ≠ name := fun heq => hx (heq ▸ hname)
  rw [Vars.findvar_delete, if_neg hne]
  exact h x hx

theorem SameChanges.callFunc (h : SameChanges N st st' w w') (func : Option VarFunc)
    (value : Option Val) :
    SameChanges N st st' (w.callFunc func value) (w'.callFunc func value) :=
  ⟨h.same.callFunc func value, h.kept.callFunc func value, h.kept'.callFunc func value⟩

theorem SameChanges.store (h : SameChanges N st st' w w') (hname : name ∈ N) (vp : Var) :
    SameChanges N st st' (w.store name vp) (w'.store name vp) :=
  ⟨h.same.store vp, h.kept.store hname vp, h.kept'.store hname vp⟩

theorem SameChanges.delete (h : SameChanges N st st' w w') (hname : name ∈ N) :
    SameChanges N st st' (w.delete name) (w'.delete name) :=
  ⟨h.same.delete, h.kept.delete hname, h.kept'.delete hname⟩

/-- `setvareq` goes by the flags and the entry of its own variable. -/
theorem SameChanges.setvareqVal (h : SameChanges N st st' w w') (hname : name ∈ N)
    (value : Option Val) (flags : VFlags) :
    (∃ u u', Bootsh.setvareqVal name value flags w = .ok u ∧
      Bootsh.setvareqVal name value flags w' = .ok u' ∧ SameChanges N st st' u u') ∨
    ∃ msg, Bootsh.setvareqVal name value flags w = .error msg ∧
      Bootsh.setvareqVal name value flags w' = .error msg := by
  unfold Bootsh.setvareqVal
  rw [← h.same.aflag, ← h.same.findvar hname]
  generalize (if w.aflag then flags ||| VFlags.vexport else flags) = flags
  dsimp only
  cases w.findvar name with
  | none =>
    dsimp only
    split
    · exact .inl ⟨w, w', rfl, rfl, h⟩
    · exact .inl ⟨_, _, rfl, rfl, h.store hname _⟩
  | some vp =>
    have hcall : SameChanges N st st' (if flags.nofunc then w else w.callFunc vp.func value)
        (if flags.nofunc then w' else w'.callFunc vp.func value) := by
      split
      · exact h
      · exact h.callFunc vp.func value
    dsimp only
    split
    · exact .inr ⟨_, rfl, rfl⟩
    · split
      · exact .inl ⟨_, _, rfl, rfl, hcall.store hname _⟩
      · split
        · exact .inl ⟨_, _, rfl, rfl, hcall.store hname _⟩
        · exact .inl ⟨_, _, rfl, rfl, hcall.delete hname⟩

theorem SameOn.lookupvar (h : SameOn N w w') (hname : name ∈ N) :
    (Bootsh.lookupvar name w).1 = (Bootsh.lookupvar name w').1 := by
  unfold Bootsh.lookupvar
  rw [h.findvar hname, h.lineno]
  cases w'.findvar name with
  | none => rfl
  | some vp =>
    dsimp only
    split
    · rfl
    · split
      · rfl
      · rw [h.linenovar]

/-- The store does the same for the names in `N` whatever the other variables are. -/
theorem shellVars_simulates (hN : ∀ x ∈ N, varName x = x) :
    Simulates (SameChanges N st st') N shellVars shellVars := by
  constructor
  · intro x w w' hx h
    exact h.same.lookupvar hx
  · intro x val w w' hx h
    change (∃ u u', setvar x (some val) VFlags.zero w = _ ∧ setvar x (some val) VFlags.zero w' = _ ∧ _) ∨
      ∃ msg, setvar x (some val) VFlags.zero w = _ ∧ setvar x (some val) VFlags.zero w' = _
    unfold setvar
    rw [hN x hx]
    split
    · exact .inr ⟨_, rfl, rfl⟩
    · exact h.setvareqVal hx _ _

end

/-! ### The names of an expression -/

theorem Derives.mem_names {cat : Category} {ts : List Lexeme} {e : Expr} {x : Text}
    (h : Derives cat ts e) (hx : x ∈ e.names) : .var x ∈ ts := by
  induction h <;> simp_all [Expr.names] <;> grind

theorem Lexes.identifier {s : Text} {ls : List Lexeme} {x : Text} (h : Lexes s ls)
    (hx : .var x ∈ ls) : IsIdentifier x := by
  induction h with
  | nil => simp at hx
  | blank _ _ ih => exact ih hx
  | num _ _ _ ih => exact ih (by simpa using hx)
  | var hlong _ ih =>
    rcases List.mem_cons.1 hx with heq | hx
    · obtain rfl := Lexeme.var.inj heq
      exact hlong.mem
    · exact ih hx
  | sym _ _ _ ih => exact ih (by simpa using hx)

theorem IsIdentifier.varName_eq {x : Text} (h : IsIdentifier x) : varName x = x := by
  obtain ⟨c, cs, rfl, hc, hcs⟩ := h
  rw [varName, List.takeWhile_eq_self_iff]
  intro d hd
  have hname : isInName d := by
    rcases List.mem_cons.1 hd with rfl | hd
    · simp only [isName, isInName, isAlnum, Bool.or_eq_true] at hc ⊢
      tauto
    · exact hcs d hd
  rw [decide_eq_true_eq]
  rintro rfl
  exact absurd hname (by decide)

theorem Context.names_subset {k : Context} {e : Expr} {x : Text} (hx : x ∈ k.names) :
    x ∈ (k.fill e).names := by
  induction k <;> simp_all [Context.names, Context.fill, Expr.names] <;> tauto

theorem Expression.varName_eq {s x : Text} {k : Context} {e : Expr} (h : Expression s (k.fill e))
    (hx : x ∈ k.names) : varName x = x := by
  obtain ⟨ls, hls, hd⟩ := h
  exact (hls.identifier (hd.mem_names (k.names_subset hx))).varName_eq

/-! ### Operands that are not selected have no effect -/

/-- What an evaluation yields: its value and the final variables, or its error. -/
def result {σ : Type} (r : Except Stop (IntMax × State σ)) : Except Stop (IntMax × σ) :=
  r.map fun p => (p.1, p.2.vars)

/-- An operand that is not selected makes no difference, in any store: another one in its
place gives the same outcome. Nor do the variables that occur nowhere else: they keep their
values, and the rest of the outcome does not depend on them. -/
theorem unselected_inert (k : Context) (e : Expr) (s : Text) (he : Expression s (k.fill e)) :
    (∀ {σ : Type} (ops : VarOps σ) (addr : Text → IntMax) (st : State σ),
      k.Unselected ops s st.vars → ∀ e' s', Expression s' (k.fill e') →
      SameOutcome Eq s s' (result (arith ops addr st s)) (result (arith ops addr st s'))) ∧
    ∀ (addr : Text → IntMax) (st st' : State Vars),
      k.Unselected shellVars s st.vars → SameOn {x | x ∈ k.names} st.vars st'.vars →
      ∀ e' s', Expression s' (k.fill e') →
      SameOutcome (SameChanges {x | x ∈ k.names} st.vars st'.vars) s s'
        (result (arith shellVars addr st s)) (result (arith shellVars addr st' s')) := by
  constructor
  · intro σ ops addr st hun e' s' he'
    rw [result, result, arith_expression ops addr st he, arith_expression ops addr st he']
    exact fill_same (Simulates.refl Set.univ ops) (by simp) hun rfl
  · intro addr st st' hun hsame e' s' he'
    rw [result, result, arith_expression shellVars addr st he,
      arith_expression shellVars addr st' he']
    apply fill_same (shellVars_simulates fun x hx => he.varName_eq hx) (fun x hx => hx) hun
    exact ⟨hsame, fun _ _ => rfl, fun _ _ => rfl⟩

theorem Derives.ofBinary {ts : List Lexeme} {e : Expr} (h : Derives (.binary 8) ts e) :
    Derives .assign ts e := .ofCond (.ofDisj (.ofConj (.single h)))

/-- The right operand of `&&` assigns and divides by zero, or reads a readonly variable. -/
theorem unselected_inert_and :
    SameOutcome Eq "0&&(x=1/0)".toList "0&&y".toList
      (result (arith noVars (fun _ => 0) fresh "0&&(x=1/0)".toList))
      (result (arith noVars (fun _ => 0) fresh "0&&y".toList)) ∧
    SameOutcome (SameChanges {x | x ∈ []} (initvar false)
        ((initvar false).store ['y'] ⟨some (.text ['z']), VFlags.vreadonly, none⟩))
      "0&&(x=1/0)".toList "0&&y".toList
      (result (arith shellVars (fun _ => 0) ⟨[], [], .eof, .val 0, initvar false⟩
        "0&&(x=1/0)".toList))
      (result (arith shellVars (fun _ => 0) ⟨[], [], .eof, .val 0,
        (initvar false).store ['y'] ⟨some (.text ['z']), VFlags.vreadonly, none⟩⟩
        "0&&y".toList)) := by
  have hls : Lexes "0&&(x=1/0)".toList [.num 0, .sym .and, .sym .lparen, .var ['x'], .sym .ass,
      .num 1, .sym (.binop .div), .num 0, .sym .rparen] := by
    refine lexes_iff.2 ⟨?_, by simp⟩
    have h₁ : scan "0&&(x=1/0)".toList = some (.num 0, "&&(x=1/0)".toList) := by decide
    have h₂ : scan "&&(x=1/0)".toList = some (.sym .and, "(x=1/0)".toList) := by decide
    have h₃ : scan "(x=1/0)".toList = some (.sym .lparen, "x=1/0)".toList) := by decide
    have h₄ : scan "x=1/0)".toList = some (.var ['x'], "=1/0)".toList) := by decide
    have h₅ : scan "=1/0)".toList = some (.sym .ass, "1/0)".toList) := by decide
    have h₆ : scan "1/0)".toList = some (.num 1, "/0)".toList) := by decide
    have h₇ : scan "/0)".toList = some (.sym (.binop .div), "0)".toList) := by decide
    have h₈ : scan "0)".toList = some (.num 0, ")".toList) := by decide
    have h₉ : scan ")".toList = some (.sym .rparen, []) := by decide
    rw [lexemes_some h₁ (by simp), lexemes_some h₂ (by simp), lexemes_some h₃ (by simp),
      lexemes_some h₄ (by simp), lexemes_some h₅ (by simp), lexemes_some h₆ (by simp),
      lexemes_some h₇ (by simp), lexemes_some h₈ (by simp), lexemes_some h₉ (by simp),
      lexemes_none rfl]
  have hls' : Lexes "0&&y".toList [.num 0, .sym .and, .var ['y']] := by
    refine lexes_iff.2 ⟨?_, by simp⟩
    have h₁ : scan "0&&y".toList = some (.num 0, "&&y".toList) := by decide
    have h₂ : scan "&&y".toList = some (.sym .and, "y".toList) := by decide
    have h₃ : scan "y".toList = some (.var ['y'], []) := by decide
    rw [lexemes_some h₁ (by simp), lexemes_some h₂ (by simp), lexemes_some h₃ (by simp),
      lexemes_none rfl]
  let e : Expr := .assign ['x'] none (.bin .div (.num 1) (.num 0))
  have hdiv : Derives (.binary (level .div + 1)) [.num 1, .sym (.binop .div), .num 0]
      (.bin .div (.num 1) (.num 0)) :=
    @Derives.bin .div [.num 1] [.num 0] _ _ ((Derives.num 1).ofUnary _) ((Derives.num 0).ofUnary _)
  have he : Derives .assign [.var ['x'], .sym .ass, .num 1, .sym (.binop .div), .num 0] e :=
    .assign rfl (hdiv.mono (by decide)).ofBinary
  have hand {us : List Lexeme} {e : Expr} (h : Derives .unary us e) :
      Derives .assign (.num 0 :: .sym .and :: us) (.and (.num 0) e) :=
    .ofCond (.ofDisj (.ofConj (.conj ((Derives.num 0).ofUnary 8) (.single (h.ofUnary 8)))))
  have hun {σ : Type} (ops : VarOps σ) (s : Text) (vars : σ) :
      (Context.andRight (.num 0) .hole).Unselected ops s vars := by
    intro va vars' hva
    exact .inl (Prod.mk.inj (Except.ok.inj hva)).1.symm
  have h := unselected_inert (.andRight (.num 0) .hole) e _ ⟨_, hls, hand (.paren he)⟩
  have he' : Expression "0&&y".toList ((Context.andRight (.num 0) .hole).fill (.var ['y'])) :=
    ⟨_, hls', hand (.var _)⟩
  have hsame : SameOn {x | x ∈ (Context.andRight (.num 0) .hole).names} (initvar false)
      ((initvar false).store ['y'] ⟨some (.text ['z']), VFlags.vreadonly, none⟩) := by
    refine ⟨?_, rfl, rfl, rfl, rfl, rfl⟩
    intro x hx
    simp [Context.names, Expr.names] at hx
  exact ⟨h.1 noVars _ _ (hun _ _ _) _ _ he',
    h.2 _ ⟨[], [], .eof, .val 0, _⟩ ⟨[], [], .eof, .val 0, _⟩ (hun _ _ _) hsame _ _ he'⟩

end Bootsh.Arith
