import Bootsh.Arith.Correct

/-!
When the evaluator performs a division that overflows, which the machine traps:
`do_binop` looks at the divisor 0 only. The evaluator works while it reads, so this
may happen before a syntax error is found.
-/
namespace Bootsh.Arith

variable {σ : Type}

/-- The quotient of the division is not an `intmax_t`. -/
def overflows (op : Binop) (a b : IntMax) : Prop :=
  divides op ∧ a = BitVec.intMin 64 ∧ b = -1

instance (op : Binop) (a b : IntMax) : Decidable (overflows op a b) :=
  inferInstanceAs (Decidable (_ ∧ _ ∧ _))

def prefixOps : List Token := [.binop .add, .binop .sub, .not, .bnot]

/-- `us` is the longest assignment expression before `ls`. -/
inductive Reads : List Lexeme → Expr → List Lexeme → Prop
  | cond {us e ls} : Derives .cond us e → Ends .cond (headToken ls) →
      (headToken us = .var → (headToken (us ++ ls).tail).assignOp = none) → Reads us e ls
  | assign {x t op us e ls} : t.assignOp = some op → Reads us e ls →
      Reads (.var x :: .sym t :: us) (.assign x op e) ls

section
variable (ops : VarOps σ) (s : Text)

/-- The evaluation of a phrase of the given category at the front of the lexemes, up
to where it can be read, comes to a division that overflows. -/
inductive Overflows : Category → List Lexeme → σ → Prop
  | paren {ls vars} : Overflows .assign ls vars → Overflows .unary (.sym .lparen :: ls) vars
  | unop {t ls vars} : t ∈ prefixOps → Overflows .unary ls vars → Overflows .unary (.sym t :: ls) vars
  | operand {k ls vars} : Overflows .unary ls vars → Overflows (.binary k) ls vars
  | right {k op ts a us va vars vars'} : level op < k → Derives (.binary (level op + 1)) ts a →
      eval ops s a vars = .ok (va, vars') → Overflows (.binary (level op)) us vars' →
      Overflows (.binary k) (ts ++ .sym (.binop op) :: us) vars
  | divide {k op ts a us b ls va vb vars vars' vars''} : level op < k →
      Derives (.binary (level op + 1)) ts a → Derives (.binary (level op)) us b →
      (∀ op', headToken ls = .binop op' → level op ≤ level op') →
      eval ops s a vars = .ok (va, vars') → eval ops s b vars' = .ok (vb, vars'') →
      overflows op va vb → Overflows (.binary k) (ts ++ .sym (.binop op) :: (us ++ ls)) vars
  | single {ls vars} : Overflows (.binary 8) ls vars → Overflows .conj ls vars
  | conj {ts a us va vars vars'} : Derives (.binary 8) ts a → eval ops s a vars = .ok (va, vars') →
      va ≠ 0 → Overflows .conj us vars' → Overflows .conj (ts ++ .sym .and :: us) vars
  | ofConj {ls vars} : Overflows .conj ls vars → Overflows .disj ls vars
  | disj {ts a us va vars vars'} : Derives .conj ts a → eval ops s a vars = .ok (va, vars') →
      va = 0 → Overflows .disj us vars' → Overflows .disj (ts ++ .sym .or :: us) vars
  | ofDisj {ls vars} : Overflows .disj ls vars → Overflows .cond ls vars
  | condThen {ts a us va vars vars'} : Derives .disj ts a → eval ops s a vars = .ok (va, vars') →
      va ≠ 0 → Overflows .assign us vars' → Overflows .cond (ts ++ .sym .qmark :: us) vars
  | condElse {ts a us b vs va vars vars'} : Derives .disj ts a → Derives .assign us b →
      eval ops s a vars = .ok (va, vars') → va = 0 → Overflows .cond vs vars' →
      Overflows .cond (ts ++ .sym .qmark :: (us ++ .sym .colon :: vs)) vars
  | ofCond {ls vars} : Overflows .cond ls vars → Overflows .assign ls vars
  | assign {x t op us vars} : Token.assignOp t = some op → Overflows .assign us vars →
      Overflows .assign (.var x :: .sym t :: us) vars
  | assignDivide {x t op us e ls v old vars vars'} : Token.assignOp t = some (some op) →
      Reads us e ls → eval ops s e vars = .ok (v, vars') → ops.lookupvarint x vars' = .ok old →
      overflows op old v → Overflows .assign (.var x :: .sym t :: (us ++ ls)) vars

end

theorem doBinop_trap_iff (s : Text) (op : Binop) (a b : IntMax) :
    doBinop s op a b = .error .trap ↔ overflows op a b := by
  unfold overflows
  cases op with
  | div | rem =>
    unfold doBinop
    dsimp only
    split_ifs with hb h
    · subst hb
      exact iff_of_false nofun fun h => absurd h.2.2 (by decide)
    · exact iff_of_true rfl ⟨rfl, h⟩
    · exact iff_of_false nofun fun h' => h h'.2
  | lshift | rshift =>
    unfold doBinop
    split_ifs <;> simp [divides]
  | _ => simp [doBinop, divides]

theorem liftError_ne_trap {α : Type} (x : Except Text α) : liftError x ≠ .error .trap := by
  cases x <;> exact nofun

theorem liftError_eq_ok {α : Type} {x : Except Text α} {a : α} : liftError x = .ok a ↔ x = .ok a := by
  cases x <;> simp [liftError]

theorem bind_eq_trap {α β : Type} {x : Except Stop α} {f : α → Except Stop β} :
    x >>= f = .error .trap ↔ x = .error .trap ∨ ∃ a, x = .ok a ∧ f a = .error .trap := by
  cases x <;> simp [bind, Except.bind]

/-- A result that agrees is the outcome. -/
theorem Agrees.value {s : Text} {ls : List Lexeme} {m : Except Stop (IntMax × σ)}
    {r : Except Stop (IntMax × State σ)} {v : IntMax} {st : State σ} (h : Agrees s ls m r)
    (hr : r = .ok (v, st)) : m = .ok (v, st.vars) ∧ st.startbuf = s := by
  subst hr
  rcases h with h | h
  · cases h
  · cases m with
    | error stop => cases h
    | ok p =>
      obtain ⟨w, vars⟩ := p
      obtain ⟨st', heq, -, hs, rfl⟩ := h
      obtain ⟨rfl, rfl⟩ := Prod.mk.inj (Except.ok.inj heq)
      exact ⟨rfl, hs⟩

section
variable {ops : VarOps σ} {addr : Text → IntMax} {fuel : ℕ}

/-! ### Where the routines stop -/

variable (ops addr) in
structure Stops (fuel : ℕ) : Prop where
  binop2 : ∀ {a op prec noeval st v st'}, binop2 ops addr fuel a op prec noeval st = .ok (v, st') →
    ∀ op2, st'.lastToken = .binop op2 → prec ≤ level op2
  binop : ∀ {token val op noeval st v st'},
    binop ops addr fuel token val op noeval st = .ok (v, st') → ∀ op, st'.lastToken ≠ .binop op
  and : ∀ {token val op noeval st v st'}, and ops addr fuel token val op noeval st = .ok (v, st') →
    Ends .conj st'.lastToken
  or : ∀ {token val op noeval st v st'}, or ops addr fuel token val op noeval st = .ok (v, st') →
    Ends .disj st'.lastToken
  cond : ∀ {token val op noeval st v st'}, cond ops addr fuel token val op noeval st = .ok (v, st') →
    Ends .cond st'.lastToken
  assignment : ∀ {token noeval st v st'}, assignment ops addr fuel token noeval st = .ok (v, st') →
    Ends .cond st'.lastToken

theorem Stops.climb (ih : Stops ops addr fuel) {prec : ℕ} {noeval : Bool} {p : IntMax × State σ}
    {v : IntMax} {st' : State σ} (h : Arith.climb ops addr fuel prec noeval p = .ok (v, st')) :
    ∀ op2, st'.lastToken = .binop op2 → prec ≤ level op2 := by
  obtain ⟨a, st⟩ := p
  by_cases hstop : ∀ op2, st.lastToken = .binop op2 → prec ≤ level op2
  · rw [climb_stop ops addr hstop] at h
    obtain ⟨rfl, rfl⟩ := Prod.mk.inj (Except.ok.inj h)
    exact hstop
  · push Not at hstop
    obtain ⟨op2, htok, hlt⟩ := hstop
    rw [climb_binop ops addr htok, arithPrec_eq_level, if_neg hlt.not_ge] at h
    exact ih.binop2 h

variable {token op : Token} {val : YYSType} {noeval : Bool} {st st' : State σ} {v : IntMax}

theorem Stops.binop_succ (ih : Stops ops addr fuel)
    (h : Arith.binop ops addr (fuel + 1) token val op noeval st = .ok (v, st')) :
    ∀ op, st'.lastToken ≠ .binop op := by
  rw [Arith.binop_succ] at h
  obtain ⟨p, -, h⟩ := Fallible.bind_eq_ok.mp h
  intro op htok
  have hle := ih.climb h op htok
  have hlt := level_lt op
  omega

theorem Stops.and_succ (ih : Stops ops addr fuel)
    (h : Arith.and ops addr (fuel + 1) token val op noeval st = .ok (v, st')) :
    Ends .conj st'.lastToken := by
  unfold Arith.and at h
  obtain ⟨⟨a, st₁⟩, h₁, h⟩ := Fallible.bind_eq_ok.mp h
  dsimp only at h
  split_ifs at h with htok
  · obtain ⟨⟨b, st₂⟩, h₂, h⟩ := Fallible.bind_eq_ok.mp h
    obtain ⟨-, rfl⟩ := Prod.mk.inj (Except.ok.inj h)
    exact ih.and h₂
  · obtain ⟨-, rfl⟩ := Prod.mk.inj (Except.ok.inj h)
    exact ⟨ih.binop h₁, htok⟩

theorem Stops.or_succ (ih : Stops ops addr fuel)
    (h : Arith.or ops addr (fuel + 1) token val op noeval st = .ok (v, st')) :
    Ends .disj st'.lastToken := by
  unfold Arith.or at h
  obtain ⟨⟨a, st₁⟩, h₁, h⟩ := Fallible.bind_eq_ok.mp h
  dsimp only at h
  split_ifs at h with htok
  · obtain ⟨⟨b, st₂⟩, h₂, h⟩ := Fallible.bind_eq_ok.mp h
    obtain ⟨-, rfl⟩ := Prod.mk.inj (Except.ok.inj h)
    exact ih.or h₂
  · obtain ⟨-, rfl⟩ := Prod.mk.inj (Except.ok.inj h)
    obtain ⟨hbin, hand⟩ := ih.and h₁
    exact ⟨hbin, hand, htok⟩

theorem Stops.cond_succ (ih : Stops ops addr fuel)
    (h : Arith.cond ops addr (fuel + 1) token val op noeval st = .ok (v, st')) :
    Ends .cond st'.lastToken := by
  unfold Arith.cond at h
  obtain ⟨⟨a, st₁⟩, h₁, h⟩ := Fallible.bind_eq_ok.mp h
  dsimp only at h
  split at h
  next htok =>
    obtain ⟨⟨b, st₂⟩, h₂, h⟩ := Fallible.bind_eq_ok.mp h
    dsimp only at h
    split at h
    next hcolon =>
      obtain ⟨⟨c, st₃⟩, h₃, h⟩ := Fallible.bind_eq_ok.mp h
      obtain ⟨-, rfl⟩ := Prod.mk.inj (Except.ok.inj h)
      exact ih.cond h₃
    next => simp at h
  next htok =>
    obtain ⟨-, rfl⟩ := Prod.mk.inj (Except.ok.inj h)
    obtain ⟨hbin, hand, hor⟩ := ih.or h₁
    exact ⟨hbin, hand, hor, htok⟩

theorem Stops.assignment_succ (ih : Stops ops addr fuel)
    (h : Arith.assignment ops addr (fuel + 1) token noeval st = .ok (v, st')) :
    Ends .cond st'.lastToken := by
  unfold Arith.assignment at h
  dsimp only at h
  split at h
  next => exact ih.cond h
  next assign hop =>
    obtain ⟨⟨r, st₁⟩, h₁, h⟩ := Fallible.bind_eq_ok.mp h
    dsimp only at h
    split_ifs at h
    · obtain ⟨-, rfl⟩ := Prod.mk.inj (Except.ok.inj h)
      exact ih.assignment h₁
    · obtain ⟨w, -, h⟩ := Fallible.bind_eq_ok.mp h
      obtain ⟨⟨w', vars⟩, -, h⟩ := Fallible.bind_eq_ok.mp h
      obtain ⟨-, rfl⟩ := Prod.mk.inj (Except.ok.inj h)
      have hends := ih.assignment h₁
      exact hends

variable (ops addr) in
theorem stops (fuel : ℕ) : Stops ops addr fuel := by
  induction fuel with
  | zero =>
    constructor <;> intros <;> simp_all [Arith.binop2, Arith.binop, Arith.and, Arith.or, Arith.cond,
      Arith.assignment]
  | succ fuel ih =>
    refine ⟨?_, ih.binop_succ, ih.and_succ, ih.or_succ, ih.cond_succ, ih.assignment_succ⟩
    intro a op prec noeval st v st' h
    rw [Arith.binop2_succ] at h
    obtain ⟨p, -, h⟩ := Fallible.bind_eq_ok.mp h
    obtain ⟨w, -, h⟩ := Fallible.bind_eq_ok.mp h
    exact ih.climb h

/-! ### The values of the phrases read -/

variable {s : Text} {ls : List Lexeme}

/-- A routine has read a phrase before `ls'` and computed its outcome. -/
structure Computes (addr : Text → IntMax) (ops : VarOps σ) (cat : Category) (noeval : Bool)
    (ls : List Lexeme) (st : State σ) (v : IntMax) (st' : State σ) (ts : List Lexeme) (e : Expr)
    (ls' : List Lexeme) : Prop where
  split : ls = ts ++ ls'
  derives : Derives cat ts e
  at_ : At st' ls'
  outcome : outcome ops addr noeval st.startbuf e st.vars = .ok (v, st'.vars)
  startbuf : st'.startbuf = st.startbuf

theorem Computes.eval {cat : Category} {ts ls' : List Lexeme} {e : Expr}
    (h : Computes addr ops cat false ls st v st' ts e ls') :
    Arith.eval ops st.startbuf e st.vars = .ok (v, st'.vars) := h.outcome

theorem primary_computes (hent : Entry₂ token val op st ls) (hp : Proper ls)
    (h : primary ops addr fuel token val op noeval st = .ok (v, st')) :
    ∃ ts e ls', Computes addr ops .unary noeval ls st v st' ts e ls' := by
  obtain ⟨ts, e, ls', rfl, hde, hat⟩ := (sound ops addr fuel).primary hent hp h
  obtain ⟨hv, hs⟩ := Agrees.value (complete ops addr hde fuel noeval hent) h
  exact ⟨ts, e, ls', rfl, hde, hat, hv, hs⟩

theorem binop_computes (hent : Entry₂ token val op st ls) (hp : Proper ls)
    (h : binop ops addr fuel token val op noeval st = .ok (v, st')) :
    ∃ ts e ls', Computes addr ops (.binary 8) noeval ls st v st' ts e ls' := by
  obtain ⟨ts, e, ls', rfl, hde, hat⟩ := (sound ops addr fuel).binop hent hp h
  have hends := (stops ops addr fuel).binop h
  rw [hat.token] at hends
  obtain ⟨hv, hs⟩ := Agrees.value (Complete.chain (complete ops addr hde) fuel noeval hent hends) h
  exact ⟨ts, e, ls', rfl, hde, hat, hv, hs⟩

theorem and_computes (hent : Entry₂ token val op st ls) (hp : Proper ls)
    (h : Arith.and ops addr fuel token val op noeval st = .ok (v, st')) :
    ∃ ts e ls', Computes addr ops .conj noeval ls st v st' ts e ls' := by
  obtain ⟨ts, e, ls', rfl, hde, hat⟩ := (sound ops addr fuel).and hent hp h
  have hends := (stops ops addr fuel).and h
  rw [hat.token] at hends
  obtain ⟨hv, hs⟩ := Agrees.value (complete ops addr hde fuel noeval hent hends) h
  exact ⟨ts, e, ls', rfl, hde, hat, hv, hs⟩

theorem or_computes (hent : Entry₂ token val op st ls) (hp : Proper ls)
    (h : Arith.or ops addr fuel token val op noeval st = .ok (v, st')) :
    ∃ ts e ls', Computes addr ops .disj noeval ls st v st' ts e ls' := by
  obtain ⟨ts, e, ls', rfl, hde, hat⟩ := (sound ops addr fuel).or hent hp h
  have hends := (stops ops addr fuel).or h
  rw [hat.token] at hends
  obtain ⟨hv, hs⟩ := Agrees.value (complete ops addr hde fuel noeval hent hends) h
  exact ⟨ts, e, ls', rfl, hde, hat, hv, hs⟩

/-- An operand, then the operators of level below `op`. -/
theorem right_computes {op₀ : Binop} {p : IntMax × State σ} (hent : Entry₂ token val op st ls)
    (hp : Proper ls)
    (h₁ : primary ops addr fuel token val op noeval st = .ok p)
    (h₂ : climb ops addr fuel (arithPrec op₀) noeval p = .ok (v, st')) :
    ∃ ts e ls', Computes addr ops (.binary (level op₀)) noeval ls st v st' ts e ls' ∧
      ∀ op', headToken ls' = .binop op' → level op₀ ≤ level op' := by
  obtain ⟨b, st₁⟩ := p
  obtain ⟨ts, e, ls₁, rfl, hde, hat⟩ := (sound ops addr fuel).primary hent hp h₁
  obtain ⟨us, e', ls₂, rfl, hd', hat', hno⟩ :=
    (sound ops addr fuel).climb (hde.ofUnary 0) hat hp.append_right (Nat.zero_le _) (by simp) h₂
  rw [arithPrec_eq_level] at hd' hno
  rw [← List.append_assoc] at hent
  have hright := Complete.right (complete ops addr hd') fuel noeval hent hno
  obtain ⟨hv, hs⟩ := Agrees.value hright (by rw [h₁]; exact h₂)
  exact ⟨ts ++ us, e', ls₂, ⟨by simp, hd', hat', hv, hs⟩, hno⟩

theorem Reads.derives {ts ls : List Lexeme} {e : Expr} (h : Reads ts e ls) :
    Derives .assign ts e := by
  induction h with
  | cond hd _ _ => exact .ofCond hd
  | assign ht _ ih => exact .assign ht ih

/-- The longest assignment expression is computed, whatever follows. -/
theorem Reads.agrees {ts ls : List Lexeme} {e : Expr} (h : Reads ts e ls) (fuel : ℕ) (noeval : Bool)
    {token : Token} {st : State σ} (hent : Entry₁ token st (ts ++ ls)) :
    Agrees st.startbuf ls (outcome ops addr noeval st.startbuf e st.vars)
      (assignment ops addr fuel token noeval st) := by
  induction h generalizing fuel noeval token st with
  | cond hd hends hsecond =>
    exact agrees_cond (complete ops addr hd) hd.ne_nil hends hsecond fuel noeval hent
  | assign ht _ ih => exact agrees_assign ht (fun fuel noeval _ _ => ih fuel noeval) fuel noeval hent

theorem assignment_computes (hent : Entry₁ token st ls) (hp : Proper ls)
    (h : assignment ops addr fuel token noeval st = .ok (v, st')) :
    ∃ ts e ls', Computes addr ops .assign noeval ls st v st' ts e ls' ∧ Reads ts e ls' := by
  have hreads : ∃ ts e ls', ls = ts ++ ls' ∧ At st' ls' ∧ Reads ts e ls' := by
    induction fuel generalizing token st ls v st' with
    | zero =>
      rw [assignment] at h
      cases h
    | succ fuel ih =>
      unfold Arith.assignment at h
      dsimp only at h
      split at h
      next hno =>
        obtain ⟨ts, e, ls', rfl, hde, hat⟩ := (sound ops addr fuel).cond hent.entry₂ hp h
        have hends := (stops ops addr fuel).cond h
        rw [hat.token] at hends
        refine ⟨ts, e, ls', rfl, hat, .cond hde hends ?_⟩
        intro hvar
        have htok : token = .var := hent.token.trans ((headToken_append hde.ne_nil ls').trans hvar)
        rw [if_pos htok, (entry₁ hent.buf).token, tailLexemes_eq_tail] at hno
        · exact hno
        · rw [headToken_append hde.ne_nil, hvar]
          simp
      next assign hop =>
        split_ifs at hop with hvar
        obtain ⟨hnum, hvar', heof, hbad⟩ := Token.assignOp_ne hop
        cases ls with
        | nil => exact absurd (hent.token.symm.trans hvar) (by simp [headToken])
        | cons l ls =>
        obtain ⟨x, rfl⟩ := (hp l (by simp)).2.1 (hent.token.symm.trans hvar)
        have hnext := entry₁ hent.buf
        rw [tailLexemes_cons (by simp)] at hnext
        obtain ⟨ls₂, rfl, hbuf, hp₂⟩ := hnext.sym hp.tail hnum hvar' heof hbad
        obtain ⟨⟨r, st₁⟩, h₁, h⟩ := Fallible.bind_eq_ok.mp h
        obtain ⟨ts, e, ls', rfl, hat, hreads⟩ := ih (entry₁ hbuf) hp₂ h₁
        refine ⟨.var x :: .sym _ :: ts, _, ls', by simp, ?_, .assign hop hreads⟩
        dsimp only at h
        split_ifs at h
        · obtain ⟨-, rfl⟩ := Prod.mk.inj (Except.ok.inj h)
          exact hat
        · obtain ⟨w, -, h⟩ := Fallible.bind_eq_ok.mp h
          obtain ⟨⟨w', vars⟩, -, h⟩ := Fallible.bind_eq_ok.mp h
          obtain ⟨-, rfl⟩ := Prod.mk.inj (Except.ok.inj h)
          exact ⟨hat.token, hat.buf⟩
  obtain ⟨ts, e, ls', rfl, hat, hreads⟩ := hreads
  obtain ⟨hv, hs⟩ := Agrees.value (hreads.agrees fuel noeval hent) h
  exact ⟨ts, e, ls', ⟨rfl, hreads.derives, hat, hv, hs⟩, hreads⟩

end

end Bootsh.Arith
