import Bootsh.Arith.Overflow

/-!
`arith` executes a division that overflows exactly when the evaluation comes to one:
nothing in the evaluator guards against it.
-/
namespace Bootsh.Arith

variable {σ : Type}

section
variable (ops : VarOps σ) (addr : Text → IntMax)

/-- The evaluation is not suppressed and comes to a division that overflows. -/
def Comes (cat : Category) (noeval : Bool) (st : State σ) (ls : List Lexeme) : Prop :=
  noeval = false ∧ Overflows ops st.startbuf cat ls st.vars

/-- What a trap in each routine says about the input, for one amount of fuel. -/
structure Traps (fuel : ℕ) : Prop where
  primary : ∀ {token val op noeval st ls}, Entry₂ token val op st ls → Proper ls →
    primary ops addr fuel token val op noeval st = .error .trap → Comes ops .unary noeval st ls
  binop2 : ∀ {a op prec noeval st ls ts₀ e₀ vars₀}, lexemes st.buf = ls → Proper ls →
    level op < prec → Derives (.binary (level op + 1)) ts₀ e₀ →
    outcome ops addr noeval st.startbuf e₀ vars₀ = .ok (a, st.vars) →
    binop2 ops addr fuel a op prec noeval st = .error .trap →
    noeval = false ∧ Overflows ops st.startbuf (.binary prec) (ts₀ ++ .sym (.binop op) :: ls) vars₀
  binop : ∀ {token val op noeval st ls}, Entry₂ token val op st ls → Proper ls →
    binop ops addr fuel token val op noeval st = .error .trap → Comes ops (.binary 8) noeval st ls
  and : ∀ {token val op noeval st ls}, Entry₂ token val op st ls → Proper ls →
    and ops addr fuel token val op noeval st = .error .trap → Comes ops .conj noeval st ls
  or : ∀ {token val op noeval st ls}, Entry₂ token val op st ls → Proper ls →
    or ops addr fuel token val op noeval st = .error .trap → Comes ops .disj noeval st ls
  cond : ∀ {token val op noeval st ls}, Entry₂ token val op st ls → Proper ls →
    cond ops addr fuel token val op noeval st = .error .trap → Comes ops .cond noeval st ls
  assignment : ∀ {token noeval st ls}, Entry₁ token st ls → Proper ls →
    assignment ops addr fuel token noeval st = .error .trap → Comes ops .assign noeval st ls

theorem Traps.zero : Traps ops addr 0 := by
  constructor <;> intros <;> simp_all [Arith.primary, Arith.binop2, Arith.binop, Arith.and,
    Arith.or, Arith.cond, Arith.assignment]

variable {ops addr} {fuel : ℕ} {token op : Token} {val : YYSType} {noeval : Bool} {st : State σ}
  {ls : List Lexeme}

/-- After a prefix operator, the operand. -/
theorem Traps.operand (ih : Traps ops addr fuel) (hent : Entry₂ token val op st ls)
    (hp : Proper ls) (htok : token ∈ prefixOps)
    (h : Arith.primary ops addr fuel op st.yylval st.yylex.1 noeval st.yylex.2 = .error .trap) :
    Comes ops .unary noeval st ls := by
  have hsym : token ≠ .num ∧ token ≠ .var ∧ token ≠ .eof ∧ token ≠ .bad := by
    revert htok
    simp only [prefixOps, List.mem_cons, List.not_mem_nil, or_false]
    rintro (rfl | rfl | rfl | rfl) <;> simp
  obtain ⟨ls, rfl, hnext, hp'⟩ := hent.sym hp hsym.1 hsym.2.1 hsym.2.2.1 hsym.2.2.2
  obtain ⟨hnoeval, hover⟩ := ih.primary hnext.entry₂ hp' h
  exact ⟨hnoeval, .unop htok hover⟩

theorem Traps.primary_succ (ih : Traps ops addr fuel) (hent : Entry₂ token val op st ls)
    (hp : Proper ls) (h : Arith.primary ops addr (fuel + 1) token val op noeval st = .error .trap) :
    Comes ops .unary noeval st ls := by
  have hunop (g : IntMax → IntMax) (htok : token ∈ prefixOps)
      (h : (Arith.primary ops addr fuel op st.yylval st.yylex.1 noeval st.yylex.2 >>= fun p =>
        (.ok (g p.1, p.2) : Except Stop (IntMax × State σ))) = .error .trap) :
      Comes ops .unary noeval st ls := by
    rcases bind_eq_trap.1 h with h | ⟨p, -, h⟩
    · exact ih.operand hent hp htok h
    · cases h
  unfold Arith.primary at h
  split at h
  next =>
    obtain ⟨ls, rfl, hnext, hp'⟩ := hent.sym hp (by simp) (by simp) (by simp) (by simp)
    rcases bind_eq_trap.1 h with h | ⟨p, -, h⟩
    · obtain ⟨hnoeval, hover⟩ := ih.assignment hnext hp' h
      exact ⟨hnoeval, .paren hover⟩
    · dsimp only at h
      split_ifs at h
      · cases h
      · simp [yyerror] at h
  next => cases h
  next =>
    split_ifs at h
    rcases bind_eq_trap.1 h with h | ⟨p, -, h⟩
    · exact absurd h (liftError_ne_trap _)
    · cases h
  next => exact ih.operand hent hp (by simp [prefixOps]) h
  next => exact hunop (-·) (by simp [prefixOps]) h
  next => exact hunop (fun v => ofBool (v == 0)) (by simp [prefixOps]) h
  next => exact hunop (~~~·) (by simp [prefixOps]) h
  next => cases h

/-- Going on from a phrase with operators of level below `k`. -/
theorem Traps.climb (ih : Traps ops addr fuel) {k prec : ℕ} {a : IntMax} {ts : List Lexeme}
    {e : Expr} {vars₀ : σ} (hde : Derives (.binary k) ts e) (hat : At st ls) (hp : Proper ls)
    (hno : ∀ op2, headToken ls = .binop op2 → k ≤ level op2 + 1)
    (hv : outcome ops addr noeval st.startbuf e vars₀ = .ok (a, st.vars))
    (h : Arith.climb ops addr fuel prec noeval (a, st) = .error .trap) :
    noeval = false ∧ Overflows ops st.startbuf (.binary prec) (ts ++ ls) vars₀ := by
  by_cases hstop : ∀ op2, st.lastToken = .binop op2 → prec ≤ level op2
  · rw [climb_stop ops addr hstop] at h
    cases h
  · push Not at hstop
    obtain ⟨op2, htok, hlt⟩ := hstop
    rw [climb_binop ops addr htok, arithPrec_eq_level, if_neg hlt.not_ge] at h
    obtain ⟨ls, rfl, hbuf, hp⟩ := hat.sym hp htok (by simp) (by simp) (by simp) (by simp)
    exact ih.binop2 hbuf hp hlt (hde.mono (hno op2 rfl)) hv h

theorem Traps.binop2_succ (ih : Traps ops addr fuel) {a : IntMax} {op : Binop} {prec : ℕ}
    {ts₀ : List Lexeme} {e₀ : Expr} {vars₀ : σ} (hls : lexemes st.buf = ls) (hp : Proper ls)
    (hlt : level op < prec) (hd₀ : Derives (.binary (level op + 1)) ts₀ e₀)
    (hv₀ : outcome ops addr noeval st.startbuf e₀ vars₀ = .ok (a, st.vars))
    (h : Arith.binop2 ops addr (fuel + 1) a op prec noeval st = .error .trap) :
    noeval = false ∧
      Overflows ops st.startbuf (.binary prec) (ts₀ ++ .sym (.binop op) :: ls) vars₀ := by
  have hent := (entry₁ hls).entry₂
  rw [Arith.binop2_succ, bind_assoc] at h
  have hright : Comes ops (.binary (level op)) noeval st ls → noeval = false ∧
      Overflows ops st.startbuf (.binary prec) (ts₀ ++ .sym (.binop op) :: ls) vars₀ := by
    rintro ⟨rfl, hover⟩
    exact ⟨rfl, .right hlt hd₀ hv₀ hover⟩
  rcases bind_eq_trap.1 h with h | ⟨⟨b, st₁⟩, h₁, h⟩
  · obtain ⟨rfl, hover⟩ := ih.primary hent hp h
    exact hright ⟨rfl, .operand hover⟩
  rcases bind_eq_trap.1 h with h | ⟨⟨c, st₂⟩, h₂, h⟩
  · obtain ⟨ts, e, ls₁, hc⟩ := primary_computes hent hp h₁
    obtain rfl := hc.split
    have hv := hc.outcome
    rw [← hc.startbuf] at hv
    obtain ⟨hnoeval, hover⟩ := ih.climb (hc.derives.ofUnary 0) hc.at_ hp.append_right (by simp) hv h
    rw [hc.startbuf, arithPrec_eq_level] at hover
    exact hright ⟨hnoeval, hover⟩
  · obtain ⟨us, b', ls₂, hc, hno⟩ := right_computes hent hp h₁ h₂
    obtain rfl := hc.split
    have hs : st₂.startbuf = st.startbuf := hc.startbuf
    rcases bind_eq_trap.1 h with hdiv | ⟨v, hv, h⟩
    · cases noeval with
      | true => cases hdiv
      | false =>
        have hover : overflows op a c := (doBinop_trap_iff _ _ _ _).1 hdiv
        exact ⟨rfl, .divide hlt hd₀ hc.derives hno hv₀ hc.eval hover⟩
    · have hout : outcome ops addr noeval st.startbuf (.bin op e₀ b') vars₀ = .ok (v, st₂.vars) := by
        have hb := hc.outcome
        simp only [State.yylex_startbuf, State.yylex_vars] at hb
        rw [outcome_bin, hv₀]
        change outcome ops addr noeval st.startbuf b' st.vars >>= _ = _
        rw [hb]
        change (if noeval then .ok c else doBinop st.startbuf op a c) >>= _ = _
        rw [hs] at hv
        rw [hv]
        rfl
      rw [← hs] at hout ⊢
      have hover := ih.climb (.bin hd₀ hc.derives) hc.at_ hp.append_right
        (fun op' h => Nat.succ_le_succ (hno op' h)) hout h
      simpa using hover

theorem Traps.binop_succ (ih : Traps ops addr fuel) (hent : Entry₂ token val op st ls)
    (hp : Proper ls) (h : Arith.binop ops addr (fuel + 1) token val op noeval st = .error .trap) :
    Comes ops (.binary 8) noeval st ls := by
  rw [Arith.binop_succ] at h
  rcases bind_eq_trap.1 h with h | ⟨⟨a, st₁⟩, h₁, h⟩
  · obtain ⟨hnoeval, hover⟩ := ih.primary hent hp h
    exact ⟨hnoeval, .operand hover⟩
  · obtain ⟨ts, e, ls₁, hc⟩ := primary_computes hent hp h₁
    obtain rfl := hc.split
    have hv := hc.outcome
    rw [← hc.startbuf] at hv
    obtain ⟨hnoeval, hover⟩ := ih.climb (hc.derives.ofUnary 0) hc.at_ hp.append_right (by simp) hv h
    rw [hc.startbuf] at hover
    exact ⟨hnoeval, hover⟩

theorem Traps.and_succ (ih : Traps ops addr fuel) (hent : Entry₂ token val op st ls)
    (hp : Proper ls) (h : Arith.and ops addr (fuel + 1) token val op noeval st = .error .trap) :
    Comes ops .conj noeval st ls := by
  unfold Arith.and at h
  rcases bind_eq_trap.1 h with h | ⟨⟨a, st₁⟩, h₁, h⟩
  · obtain ⟨hnoeval, hover⟩ := ih.binop hent hp h
    exact ⟨hnoeval, .single hover⟩
  obtain ⟨ts, e, ls₁, hc⟩ := binop_computes hent hp h₁
  obtain rfl := hc.split
  dsimp only at h
  split_ifs at h with htok
  obtain ⟨ls₂, rfl, hbuf, hp'⟩ := hc.at_.sym hp.append_right htok (by simp) (by simp) (by simp)
    (by simp)
  rcases bind_eq_trap.1 h with h | ⟨p, -, h⟩
  · obtain ⟨hnoeval, hover⟩ := ih.and (entry₁ hbuf).entry₂ hp' h
    rw [Bool.or_eq_false_iff] at hnoeval
    obtain ⟨rfl, ha⟩ := hnoeval
    have hover : Overflows ops st₁.startbuf .conj ls₂ st₁.vars := hover
    rw [hc.startbuf] at hover
    exact ⟨rfl, .conj hc.derives hc.eval (by simpa using ha) hover⟩
  · cases h

theorem Traps.or_succ (ih : Traps ops addr fuel) (hent : Entry₂ token val op st ls)
    (hp : Proper ls) (h : Arith.or ops addr (fuel + 1) token val op noeval st = .error .trap) :
    Comes ops .disj noeval st ls := by
  unfold Arith.or at h
  rcases bind_eq_trap.1 h with h | ⟨⟨a, st₁⟩, h₁, h⟩
  · obtain ⟨hnoeval, hover⟩ := ih.and hent hp h
    exact ⟨hnoeval, .ofConj hover⟩
  obtain ⟨ts, e, ls₁, hc⟩ := and_computes hent hp h₁
  obtain rfl := hc.split
  dsimp only at h
  split_ifs at h with htok
  obtain ⟨ls₂, rfl, hbuf, hp'⟩ := hc.at_.sym hp.append_right htok (by simp) (by simp) (by simp)
    (by simp)
  rcases bind_eq_trap.1 h with h | ⟨p, -, h⟩
  · obtain ⟨hnoeval, hover⟩ := ih.or (entry₁ hbuf).entry₂ hp' h
    rw [Bool.or_eq_false_iff] at hnoeval
    obtain ⟨rfl, ha⟩ := hnoeval
    have hover : Overflows ops st₁.startbuf .disj ls₂ st₁.vars := hover
    rw [hc.startbuf] at hover
    exact ⟨rfl, .disj hc.derives hc.eval (by simpa using ha) hover⟩
  · cases h

theorem Traps.cond_succ (ih : Traps ops addr fuel) (hent : Entry₂ token val op st ls)
    (hp : Proper ls) (h : Arith.cond ops addr (fuel + 1) token val op noeval st = .error .trap) :
    Comes ops .cond noeval st ls := by
  unfold Arith.cond at h
  rcases bind_eq_trap.1 h with h | ⟨⟨a, st₁⟩, h₁, h⟩
  · obtain ⟨hnoeval, hover⟩ := ih.or hent hp h
    exact ⟨hnoeval, .ofDisj hover⟩
  obtain ⟨ts, e, ls₁, hc⟩ := or_computes hent hp h₁
  obtain rfl := hc.split
  dsimp only at h
  split at h
  case isFalse => cases h
  case isTrue htok =>
  obtain ⟨ls₂, rfl, hbuf, hp'⟩ := hc.at_.sym hp.append_right htok (by simp) (by simp) (by simp)
    (by simp)
  rcases bind_eq_trap.1 h with h | ⟨⟨b, st₂⟩, h₂, h⟩
  · obtain ⟨hnoeval, hover⟩ := ih.assignment (entry₁ hbuf) hp' h
    rw [Bool.or_eq_false_iff] at hnoeval
    obtain ⟨rfl, ha⟩ := hnoeval
    have hover : Overflows ops st₁.startbuf .assign ls₂ st₁.vars := hover
    rw [hc.startbuf] at hover
    exact ⟨rfl, .condThen hc.derives hc.eval (by simpa using ha) hover⟩
  obtain ⟨us, b', ls₃, hc₂, -⟩ := assignment_computes (entry₁ hbuf) hp' h₂
  obtain rfl := hc₂.split
  dsimp only at h
  split at h
  case isFalse => cases h
  case isTrue hcolon =>
    obtain ⟨ls₄, rfl, hbuf₂, hp₂⟩ := hc₂.at_.sym hp'.append_right hcolon (by simp) (by simp)
      (by simp) (by simp)
    rcases bind_eq_trap.1 h with h | ⟨p, -, h⟩
    · obtain ⟨hnoeval, hover⟩ := ih.cond (entry₁ hbuf₂).entry₂ hp₂ h
      rw [Bool.or_eq_false_iff] at hnoeval
      obtain ⟨rfl, ha⟩ := hnoeval
      have ha : a = 0 := by simpa using ha
      have hskip := hc₂.outcome
      rw [ha] at hskip
      have hvars : st₁.vars = st₂.vars := (Prod.mk.inj (Except.ok.inj hskip)).2
      have hover : Overflows ops st₂.startbuf .cond ls₄ st₂.vars := hover
      rw [hc₂.startbuf, ← hvars] at hover
      have hs : st₁.startbuf = st.startbuf := hc.startbuf
      rw [State.yylex_startbuf, hs] at hover
      exact ⟨rfl, .condElse hc.derives hc₂.derives hc.eval ha hover⟩
    · cases h

theorem Traps.assignment_succ (ih : Traps ops addr fuel) (hent : Entry₁ token st ls)
    (hp : Proper ls) (h : Arith.assignment ops addr (fuel + 1) token noeval st = .error .trap) :
    Comes ops .assign noeval st ls := by
  unfold Arith.assignment at h
  dsimp only at h
  split at h
  next =>
    obtain ⟨hnoeval, hover⟩ := ih.cond hent.entry₂ hp h
    exact ⟨hnoeval, .ofCond hover⟩
  next assign hop =>
    split_ifs at hop with hvar
    obtain ⟨hnum, hvar', heof, hbad⟩ := Token.assignOp_ne hop
    cases ls with
    | nil => exact absurd (hent.token.symm.trans hvar) (by simp [headToken])
    | cons l ls =>
    obtain ⟨x, rfl⟩ := (hp l (by simp)).2.1 (hent.token.symm.trans hvar)
    have hnext := entry₁ hent.buf
    rw [tailLexemes_cons (by simp)] at hnext
    obtain ⟨ls₂, rfl, hbuf, hp₂⟩ := hnext.sym hp.tail hnum hvar' heof hbad
    rcases bind_eq_trap.1 h with h | ⟨⟨r, st₁⟩, h₁, h⟩
    · obtain ⟨hnoeval, hover⟩ := ih.assignment (entry₁ hbuf) hp₂ h
      exact ⟨hnoeval, .assign hop hover⟩
    obtain ⟨us, e, ls₃, hc, hreads⟩ := assignment_computes (entry₁ hbuf) hp₂ h₁
    obtain rfl := hc.split
    have hname : st.yylval.toName = x := congrArg YYSType.toName hent.val
    cases noeval with
    | true => cases h
    | false =>
      rw [hname] at h
      rcases bind_eq_trap.1 h with h | ⟨v, -, h⟩
      · cases assign with
        | none => cases h
        | some op =>
          rcases bind_eq_trap.1 h with h | ⟨old, hold, h⟩
          · exact absurd h (liftError_ne_trap _)
          · exact ⟨rfl, .assignDivide hop hreads hc.eval (liftError_eq_ok.1 hold)
              ((doBinop_trap_iff _ _ _ _).1 h)⟩
      · rcases bind_eq_trap.1 h with h | ⟨p, -, h⟩
        · exact absurd h (liftError_ne_trap _)
        · cases h

variable (ops addr) in
theorem traps (fuel : ℕ) : Traps ops addr fuel := by
  induction fuel with
  | zero => exact Traps.zero ops addr
  | succ fuel ih =>
    exact ⟨ih.primary_succ, ih.binop2_succ, ih.binop_succ, ih.and_succ, ih.or_succ, ih.cond_succ,
      ih.assignment_succ⟩

end

/-! ### Every overflow is trapped -/

/-- The routine runs into the trap, if there is fuel enough. -/
def Trapped {α : Type} (r : Except Stop α) : Prop := r = .error .fuel ∨ r = .error .trap

theorem Trapped.bind {α β : Type} {r : Except Stop α} (h : Trapped r) (f : α → Except Stop β) :
    Trapped (r >>= f) := by
  rcases h with rfl | rfl
  · exact .inl rfl
  · exact .inr rfl

/-- A result that agrees with a value, when the rest is trapped. -/
theorem Agrees.trapped {β : Type} {s : Text} {ls : List Lexeme} {v : IntMax} {vars : σ}
    {r : Except Stop (IntMax × State σ)} {f : IntMax × State σ → Except Stop β}
    (h : Agrees s ls (.ok (v, vars)) r)
    (hf : ∀ st, At st ls → st.startbuf = s → st.vars = vars → Trapped (f (v, st))) :
    Trapped (r >>= f) := by
  rcases h with rfl | ⟨st, rfl, hat, hs, hvars⟩
  · exact .inl rfl
  · exact hf st hat hs hvars

section
variable (ops : VarOps σ) (addr : Text → IntMax) (s : Text)

/-- What the routine for a category does on the given lexemes and variables. -/
def TrapsAt : Category → List Lexeme → σ → Prop
  | .unary, ls, vars => ∀ fuel {token val op} {st : State σ}, Entry₂ token val op st ls →
      st.startbuf = s → st.vars = vars → Trapped (primary ops addr fuel token val op false st)
  | .binary k, ls, vars => ∀ fuel {token val op prec} {st : State σ}, Entry₂ token val op st ls →
      st.startbuf = s → st.vars = vars → k ≤ prec →
      Trapped (primary ops addr fuel token val op false st >>= climb ops addr fuel prec false)
  | .conj, ls, vars => ∀ fuel {token val op} {st : State σ}, Entry₂ token val op st ls →
      st.startbuf = s → st.vars = vars → Trapped (and ops addr fuel token val op false st)
  | .disj, ls, vars => ∀ fuel {token val op} {st : State σ}, Entry₂ token val op st ls →
      st.startbuf = s → st.vars = vars → Trapped (or ops addr fuel token val op false st)
  | .cond, ls, vars => ∀ fuel {token val op} {st : State σ}, Entry₂ token val op st ls →
      st.startbuf = s → st.vars = vars → Trapped (cond ops addr fuel token val op false st)
  | .assign, ls, vars => ∀ fuel {token} {st : State σ}, Entry₁ token st ls →
      st.startbuf = s → st.vars = vars → Trapped (assignment ops addr fuel token false st)

variable {ops addr s} {ls us ts : List Lexeme} {vars vars' : σ}

theorem TrapsAt.paren (ih : TrapsAt ops addr s .assign ls vars) :
    TrapsAt ops addr s .unary (.sym .lparen :: ls) vars := by
  intro fuel token val op st hent hs hvars
  cases fuel with
  | zero => exact .inl (by rw [primary])
  | succ fuel =>
    have htok : token = .lparen := hent.token
    have hnext := hent.next
    rw [tailLexemes_cons (by simp)] at hnext
    rw [htok, primary]
    exact (ih fuel hnext hs hvars).bind _

theorem TrapsAt.unop {t : Token} (ht : t ∈ prefixOps) (ih : TrapsAt ops addr s .unary ls vars) :
    TrapsAt ops addr s .unary (.sym t :: ls) vars := by
  intro fuel token val op st hent hs hvars
  cases fuel with
  | zero => exact .inl (by rw [primary])
  | succ fuel =>
    have htok : token = t := hent.token
    have hnext := hent.next
    have hbad : t ≠ .bad := by
      rintro rfl
      exact absurd ht (by decide)
    rw [tailLexemes_cons (by simpa using hbad)] at hnext
    have hrun := ih fuel hnext.entry₂ hs hvars
    rw [htok]
    simp only [prefixOps, List.mem_cons, List.not_mem_nil, or_false] at ht
    rcases ht with rfl | rfl | rfl | rfl
    · exact hrun
    all_goals exact hrun.bind _

theorem TrapsAt.operand {k : ℕ} (ih : TrapsAt ops addr s .unary ls vars) :
    TrapsAt ops addr s (.binary k) ls vars := by
  intro fuel token val op prec st hent hs hvars _
  exact (ih fuel hent hs hvars).bind _

/-- The left operand has been read; the right one is next. -/
theorem trapped_left {k prec : ℕ} {op : Binop} {a : Expr} {va : IntMax} {token op' : Token}
    {val : YYSType} {st : State σ} (fuel : ℕ) (hlt : level op < k) (hk : k ≤ prec)
    (hd : Derives (.binary (level op + 1)) ts a) (ha : eval ops s a vars = .ok (va, vars'))
    (hent : Entry₂ token val op' st (ts ++ .sym (.binop op) :: us)) (hs : st.startbuf = s)
    (hvars : st.vars = vars)
    (h : ∀ fuel st₁, lexemes st₁.buf = us → st₁.startbuf = s → st₁.vars = vars' →
      Trapped (binop2 ops addr fuel va op prec false st₁)) :
    Trapped (primary ops addr fuel token val op' false st >>= climb ops addr fuel prec false) := by
  subst hs hvars
  obtain ⟨r, fuel', hr, hclimb⟩ := complete ops addr hd fuel false hent (hlt.trans_le hk)
    (by rintro op2 ⟨⟩; exact le_rfl)
  rw [hclimb]
  rw [outcome_false, ha] at hr
  refine hr.trapped fun st₁ hat hs hvars => ?_
  have hnot : ¬ prec ≤ arithPrec op := by
    rw [arithPrec_eq_level]
    omega
  rw [climb_binop ops addr hat.token, if_neg hnot]
  exact h fuel' st₁ (hat.buf.trans (tailLexemes_cons (by simp) _)) hs hvars

theorem TrapsAt.right {k : ℕ} {op : Binop} {a : Expr} {va : IntMax} (hlt : level op < k)
    (hd : Derives (.binary (level op + 1)) ts a) (ha : eval ops s a vars = .ok (va, vars'))
    (ih : TrapsAt ops addr s (.binary (level op)) us vars') :
    TrapsAt ops addr s (.binary k) (ts ++ .sym (.binop op) :: us) vars := by
  intro fuel token val op' prec st hent hs hvars hk
  refine trapped_left fuel hlt hk hd ha hent hs hvars fun fuel st₁ hbuf hs hvars => ?_
  cases fuel with
  | zero => exact .inl (by rw [binop2])
  | succ fuel =>
    rw [binop2_succ]
    exact (ih fuel (entry₁ hbuf).entry₂ hs hvars (arithPrec_eq_level op).ge).bind _

theorem TrapsAt.divide {k : ℕ} {op : Binop} {a b : Expr} {va vb : IntMax} {vars'' : σ}
    (hlt : level op < k) (hd : Derives (.binary (level op + 1)) ts a)
    (hd' : Derives (.binary (level op)) us b)
    (hends : ∀ op', headToken ls = .binop op' → level op ≤ level op')
    (ha : eval ops s a vars = .ok (va, vars')) (hb : eval ops s b vars' = .ok (vb, vars''))
    (hover : overflows op va vb) :
    TrapsAt ops addr s (.binary k) (ts ++ .sym (.binop op) :: (us ++ ls)) vars := by
  intro fuel token val op' prec st hent hs hvars hk
  refine trapped_left fuel hlt hk hd ha hent hs hvars fun fuel st₁ hbuf hs hvars => ?_
  cases fuel with
  | zero => exact .inl (by rw [binop2])
  | succ fuel =>
    subst hs hvars
    rw [binop2_succ]
    have hright := Complete.right (complete ops addr hd') fuel false (entry₁ hbuf).entry₂ hends
    rw [outcome_false] at hright
    change Agrees st₁.startbuf ls (eval ops st₁.startbuf b st₁.vars) _ at hright
    rw [hb] at hright
    refine hright.trapped fun st₂ _ _ _ => .inr ?_
    simp only [Bool.false_eq_true, if_false, (doBinop_trap_iff st₂.startbuf op va vb).2 hover]
    rfl

theorem TrapsAt.single (ih : TrapsAt ops addr s (.binary 8) ls vars) :
    TrapsAt ops addr s .conj ls vars := by
  intro fuel token val op st hent hs hvars
  cases fuel with
  | zero => exact .inl (by rw [and])
  | succ fuel =>
    rw [and]
    refine Trapped.bind ?_ _
    cases fuel with
    | zero => exact .inl (by rw [binop])
    | succ fuel =>
      rw [binop_succ]
      exact ih fuel hent hs hvars le_rfl

theorem TrapsAt.conj {a : Expr} {va : IntMax} (hd : Derives (.binary 8) ts a)
    (ha : eval ops s a vars = .ok (va, vars')) (hva : va ≠ 0)
    (ih : TrapsAt ops addr s .conj us vars') :
    TrapsAt ops addr s .conj (ts ++ .sym .and :: us) vars := by
  intro fuel token val op st hent hs hvars
  subst hs hvars
  cases fuel with
  | zero => exact .inl (by rw [and])
  | succ fuel =>
    have hleft := Complete.chain (complete ops addr hd) fuel false hent
      (by simp [headToken, Lexeme.token])
    rw [outcome_false, ha] at hleft
    rw [and]
    refine hleft.trapped fun st₁ hat hs hvars => ?_
    have htok : st₁.lastToken = .and := hat.token
    have hnoeval : (false || va == 0) = false := by simpa using hva
    simp only [htok, if_true, hnoeval]
    exact (ih fuel (entry₁ (hat.buf.trans (tailLexemes_cons (by simp) _))).entry₂ hs hvars).bind _

theorem TrapsAt.ofConj (ih : TrapsAt ops addr s .conj ls vars) : TrapsAt ops addr s .disj ls vars := by
  intro fuel token val op st hent hs hvars
  cases fuel with
  | zero => exact .inl (by rw [or])
  | succ fuel =>
    rw [or]
    exact (ih fuel hent hs hvars).bind _

theorem TrapsAt.disj {a : Expr} {va : IntMax} (hd : Derives .conj ts a)
    (ha : eval ops s a vars = .ok (va, vars')) (hva : va = 0)
    (ih : TrapsAt ops addr s .disj us vars') :
    TrapsAt ops addr s .disj (ts ++ .sym .or :: us) vars := by
  intro fuel token val op st hent hs hvars
  subst hs hvars hva
  cases fuel with
  | zero => exact .inl (by rw [or])
  | succ fuel =>
    have hleft := complete ops addr hd fuel false hent (by simp [Ends, headToken, Lexeme.token])
    rw [outcome_false, ha] at hleft
    rw [or]
    refine hleft.trapped fun st₁ hat hs hvars => ?_
    have htok : st₁.lastToken = .or := hat.token
    simp only [htok, if_true]
    exact (ih fuel (entry₁ (hat.buf.trans (tailLexemes_cons (by simp) _))).entry₂ hs hvars).bind _

theorem TrapsAt.ofDisj (ih : TrapsAt ops addr s .disj ls vars) : TrapsAt ops addr s .cond ls vars := by
  intro fuel token val op st hent hs hvars
  cases fuel with
  | zero => exact .inl (by rw [Arith.cond])
  | succ fuel =>
    rw [Arith.cond]
    exact (ih fuel hent hs hvars).bind _

theorem TrapsAt.condThen {a : Expr} {va : IntMax} (hd : Derives .disj ts a)
    (ha : eval ops s a vars = .ok (va, vars')) (hva : va ≠ 0)
    (ih : TrapsAt ops addr s .assign us vars') :
    TrapsAt ops addr s .cond (ts ++ .sym .qmark :: us) vars := by
  intro fuel token val op st hent hs hvars
  subst hs hvars
  cases fuel with
  | zero => exact .inl (by rw [Arith.cond])
  | succ fuel =>
    have hleft := complete ops addr hd fuel false hent (by simp [Ends, headToken, Lexeme.token])
    rw [outcome_false, ha] at hleft
    rw [Arith.cond]
    refine hleft.trapped fun st₁ hat hs hvars => ?_
    have htok : st₁.lastToken = .qmark := hat.token
    have hnoeval : (false || va == 0) = false := by simpa using hva
    simp only [htok, if_true, hnoeval]
    exact (ih fuel (entry₁ (hat.buf.trans (tailLexemes_cons (by simp) _))) hs hvars).bind _

theorem TrapsAt.condElse {a b : Expr} {va : IntMax} {vs : List Lexeme} (hd : Derives .disj ts a)
    (hd' : Derives .assign us b) (ha : eval ops s a vars = .ok (va, vars')) (hva : va = 0)
    (ih : TrapsAt ops addr s .cond vs vars') :
    TrapsAt ops addr s .cond (ts ++ .sym .qmark :: (us ++ .sym .colon :: vs)) vars := by
  intro fuel token val op st hent hs hvars
  subst hs hvars hva
  cases fuel with
  | zero => exact .inl (by rw [Arith.cond])
  | succ fuel =>
    have hleft := complete ops addr hd fuel false hent (by simp [Ends, headToken, Lexeme.token])
    rw [outcome_false, ha] at hleft
    rw [Arith.cond]
    refine hleft.trapped fun st₁ hat hs hvars => ?_
    have htok : st₁.lastToken = .qmark := hat.token
    simp only [htok, if_true]
    have hskip := complete ops addr hd' fuel true
      (entry₁ (hat.buf.trans (tailLexemes_cons (by simp) _)))
      (by simp [Ends, headToken, Lexeme.token, Token.assignOp])
    refine hskip.trapped fun st₂ hat₂ hs₂ hvars₂ => ?_
    have htok : st₂.lastToken = .colon := hat₂.token
    simp only [htok, if_true]
    exact (ih fuel (entry₁ (hat₂.buf.trans (tailLexemes_cons (by simp) _))).entry₂ (hs₂.trans hs)
      (hvars₂.trans hvars)).bind _

/-- What traps is not an assignment to the first name. -/
theorem TrapsAt.ofCond (hnot : headToken ls = .var → (headToken ls.tail).assignOp = none)
    (ih : TrapsAt ops addr s .cond ls vars) : TrapsAt ops addr s .assign ls vars := by
  intro fuel token st hent hs hvars
  cases fuel with
  | zero => exact .inl (by rw [assignment])
  | succ fuel =>
    have hno : (if token = .var then st.yylex.1.assignOp else none) = none := by
      split_ifs with htok
      · have hvar := hent.token.symm.trans htok
        rw [(entry₁ hent.buf).token, tailLexemes_eq_tail (by simp [hvar])]
        exact hnot hvar
      · rfl
    rw [assignment]
    simp only [hno]
    exact ih fuel hent.entry₂ hs hvars

/-- The entry to the right side of an assignment. -/
theorem trapped_assign {x : Text} {t : Token} {op : Option Binop} {fuel : ℕ} {token : Token}
    {st : State σ} (ht : t.assignOp = some op) (hent : Entry₁ token st (.var x :: .sym t :: us))
    (h : ∀ st₁ : State σ, lexemes st₁.buf = us → st₁.startbuf = st.startbuf → st₁.vars = st.vars →
      Trapped (assignment ops addr fuel st₁.yylex.1 false st₁.yylex.2 >>= fun p => do
        let v ← assignValue ops p.2.startbuf op x p.1 p.2.vars
        let q ← liftError (ops.setvarint x v p.2.vars)
        return (q.1, { p.2 with vars := q.2 }))) :
    Trapped (assignment ops addr (fuel + 1) token false st) := by
  have htok : token = .var := hent.token
  have hval : st.yylval = .name x := hent.val
  have hnext := entry₁ (hent.buf.trans (tailLexemes_cons (by simp) _))
  have htok₂ : st.yylex.1 = t := hnext.token
  have hbuf := hnext.buf.trans (tailLexemes_cons (by simpa using (Token.assignOp_ne ht).2.2.2) _)
  rw [assignment]
  simp only [htok, if_true, htok₂, ht, hval, YYSType.toName]
  exact h st.yylex.2 hbuf rfl rfl

theorem TrapsAt.assign {x : Text} {t : Token} {op : Option Binop} (ht : t.assignOp = some op)
    (ih : TrapsAt ops addr s .assign us vars) :
    TrapsAt ops addr s .assign (.var x :: .sym t :: us) vars := by
  intro fuel token st hent hs hvars
  cases fuel with
  | zero => exact .inl (by rw [assignment])
  | succ fuel =>
    refine trapped_assign ht hent fun st₁ hbuf hs₁ hvars₁ => ?_
    exact (ih fuel (entry₁ hbuf) (hs₁.trans hs) (hvars₁.trans hvars)).bind _

theorem TrapsAt.assignDivide {x : Text} {t : Token} {op : Binop} {e : Expr} {v old : IntMax}
    (ht : t.assignOp = some (some op)) (hreads : Reads us e ls)
    (he : eval ops s e vars = .ok (v, vars')) (hold : ops.lookupvarint x vars' = .ok old)
    (hover : overflows op old v) :
    TrapsAt ops addr s .assign (.var x :: .sym t :: (us ++ ls)) vars := by
  intro fuel token st hent hs hvars
  subst hs hvars
  cases fuel with
  | zero => exact .inl (by rw [assignment])
  | succ fuel =>
    refine trapped_assign ht hent fun st₁ hbuf hs₁ hvars₁ => ?_
    have hright := @Reads.agrees _ ops addr us ls e hreads fuel false _ _ (entry₁ hbuf)
    rw [outcome_false, State.yylex_startbuf, State.yylex_vars, hs₁, hvars₁, he] at hright
    refine hright.trapped fun st₂ _ _ hvars₂ => .inr ?_
    dsimp only
    rw [assignValue, hvars₂, hold]
    have hdo := (doBinop_trap_iff st₂.startbuf op old v).2 hover
    change (doBinop st₂.startbuf op old v >>= fun _ => _) = _
    rw [hdo]
    rfl

theorem Overflows.second {cat : Category} (h : Overflows ops s cat ls vars) (hcat : cat ≠ .assign)
    (hvar : headToken ls = .var) : (headToken ls.tail).assignOp = none := by
  induction h with
  | paren => cases hvar
  | unop ht _ _ =>
    obtain rfl : _ = Token.var := hvar
    exact absurd ht (by decide)
  | operand _ ih | single _ ih | ofConj _ ih | ofDisj _ ih => exact ih (by simp) hvar
  | right _ hd | divide _ hd | conj hd | disj hd | condThen hd | condElse hd =>
    rw [headToken_append hd.ne_nil] at hvar
    exact hd.second (by simp) hvar rfl
  | ofCond | assign | assignDivide => exact absurd rfl hcat

variable (addr) in
theorem Overflows.trapsAt {cat : Category} (h : Overflows ops s cat ls vars) :
    TrapsAt ops addr s cat ls vars := by
  induction h with
  | paren _ ih => exact ih.paren
  | unop ht _ ih => exact ih.unop ht
  | operand _ ih => exact ih.operand
  | right hlt hd ha _ ih => exact .right hlt hd ha ih
  | divide hlt hd hd' hends ha hb hover => exact .divide hlt hd hd' hends ha hb hover
  | single _ ih => exact ih.single
  | conj hd ha hva _ ih => exact .conj hd ha hva ih
  | ofConj _ ih => exact ih.ofConj
  | disj hd ha hva _ ih => exact .disj hd ha hva ih
  | ofDisj _ ih => exact ih.ofDisj
  | condThen hd ha hva _ ih => exact .condThen hd ha hva ih
  | condElse hd hd' ha hva _ ih => exact .condElse hd hd' ha hva ih
  | ofCond h ih => exact ih.ofCond fun hvar => h.second (by simp) hvar
  | assign ht _ ih => exact ih.assign ht
  | assignDivide ht hreads he hold hover => exact .assignDivide ht hreads he hold hover

end

variable (ops : VarOps σ) (addr : Text → IntMax) (st : State σ) (s : Text)

end Bootsh.Arith
