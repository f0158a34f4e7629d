import Bootsh.Arith.Scan
import Bootsh.Lib.Fallible

/-!
The evaluator accepts exactly the expressions of the grammar, and never runs out
of fuel.
-/
namespace Bootsh.Arith

variable {σ : Type}

/-! ### The input as a list of lexemes -/

def headToken : List Lexeme → Token
  | [] => .eof
  | l :: _ => l.token

/-- What is left after one `yylex`: a bad character stays in the input. -/
def tailLexemes : List Lexeme → List Lexeme
  | [] => []
  | l :: ls => if l = .sym .bad then [l] else ls

@[simp] theorem tailLexemes_cons {l : Lexeme} (h : l ≠ .sym .bad) (ls : List Lexeme) :
    tailLexemes (l :: ls) = ls := if_neg h

/-- `yylval` holds the value of the first lexeme, if that has one. -/
def Holds (v : YYSType) : List Lexeme → Prop
  | .num n :: _ => v = .val (saturate false n).1
  | .var x :: _ => v = .name x
  | _ => True

/-- The lexemes of numbers and names are not written as symbols. -/
def Proper (ls : List Lexeme) : Prop :=
  ∀ l ∈ ls, (l.token = .num → ∃ n, l = .num n) ∧ (l.token = .var → ∃ x, l = .var x) ∧
    l.token ≠ .eof

theorem Proper.tail {l : Lexeme} {ls : List Lexeme} (h : Proper (l :: ls)) : Proper ls :=
  fun m hm => h m (by simp [hm])

theorem Proper.append_right {ts ls : List Lexeme} (h : Proper (ts ++ ls)) : Proper ls :=
  fun m hm => h m (by simp [hm])

theorem scan_eq_sym {s buf : Text} {t : Token} (h : scan s = some (.sym t, buf)) :
    (t = .bad ∧ buf = s) ∨ ∃ tok, Spells tok t := by
  unfold scan at h
  split at h
  · simp at h
  · split_ifs at h
    · simp at h
    · simp at h
    · split at h
      next hq =>
        obtain ⟨⟨rfl⟩, -⟩ := Prod.mk.inj (Option.some.inj h)
        obtain ⟨tok, hs, -⟩ := yyop_spells hq
        exact .inr ⟨tok, hs⟩
      · obtain ⟨h₁, h₂⟩ := Prod.mk.inj (Option.some.inj h)
        exact .inl ⟨(Lexeme.sym.inj h₁).symm, h₂.symm⟩

theorem scan_proper {s buf : Text} {l : Lexeme} (h : scan s = some (l, buf)) : Proper [l] := by
  intro m hm
  obtain rfl := List.mem_singleton.mp hm
  cases m with
  | num n => exact ⟨fun _ => ⟨n, rfl⟩, by simp [Lexeme.token], by simp [Lexeme.token]⟩
  | var x => exact ⟨by simp [Lexeme.token], fun _ => ⟨x, rfl⟩, by simp [Lexeme.token]⟩
  | sym t =>
    have key : ∀ p ∈ spellings, p.2 ≠ .num ∧ p.2 ≠ .var ∧ p.2 ≠ .eof := by decide
    rcases scan_eq_sym h with ⟨rfl, -⟩ | ⟨_, p, hp, -, rfl⟩
    · simp [Lexeme.token]
    · obtain ⟨h₁, h₂, h₃⟩ := key p hp
      simp [Lexeme.token, h₁, h₂, h₃]

theorem lexemes_proper (s : Text) : Proper (lexemes s) := by
  induction hlen : s.length using Nat.strong_induction_on generalizing s with
  | _ n ih =>
    cases hs : scan s with
    | none => simp [lexemes_none hs, Proper]
    | some r =>
      obtain ⟨l, buf⟩ := r
      by_cases hl : l = .sym .bad
      · subst hl
        rw [lexemes_bad hs]
        exact scan_proper hs
      · rw [lexemes_some hs hl]
        have hrest := ih buf.length (hlen ▸ (scan_eq_some hs hl).1) buf rfl
        intro m hm
        rcases List.mem_cons.mp hm with rfl | hm
        · exact scan_proper hs m (by simp)
        · exact hrest m hm

theorem lexemes_length (s : Text) : (lexemes s).length ≤ s.length := by
  induction hlen : s.length using Nat.strong_induction_on generalizing s with
  | _ n ih =>
    cases hs : scan s with
    | none => simp [lexemes_none hs]
    | some r =>
      obtain ⟨l, buf⟩ := r
      by_cases hl : l = .sym .bad
      · subst hl
        rw [lexemes_bad hs]
        cases s with
        | nil => simp [scan] at hs
        | cons c s => simp [← hlen]
      · have hlt := (scan_eq_some hs hl).1
        have := ih buf.length (hlen ▸ hlt) buf rfl
        rw [lexemes_some hs hl, List.length_cons]
        omega

/-- One call of `yylex` on an input with lexemes `ls`. -/
theorem State.yylex_spec {st : State σ} {ls : List Lexeme} (h : lexemes st.buf = ls) :
    st.yylex.1 = headToken ls ∧ Holds st.yylex.2.yylval ls ∧
      lexemes st.yylex.2.buf = tailLexemes ls ∧ st.yylex.2.vars = st.vars ∧
      st.yylex.2.startbuf = st.startbuf := by
  subst h
  simp only [State.yylex, yylex_eq]
  cases hs : scan st.buf with
  | none => simp [lexemes_none hs, headToken, Holds, tailLexemes, show lexemes [] = [] from lexemes_none rfl]
  | some r =>
    obtain ⟨l, buf⟩ := r
    by_cases hl : l = .sym .bad
    · subst hl
      have hbuf : buf = st.buf := by
        rcases scan_eq_sym hs with ⟨-, h⟩ | ⟨_, h⟩
        · exact h
        · exact absurd rfl h.ne_bad
      subst hbuf
      simp [lexemes_bad hs, headToken, Holds, tailLexemes]
    · rw [lexemes_some hs hl]
      cases l <;> simp_all [headToken, Holds, tailLexemes, Lexeme.val]

/-- The look-ahead `last_token` and the input are at `ls`. -/
structure At (st : State σ) (ls : List Lexeme) : Prop where
  token : st.lastToken = headToken ls
  buf : lexemes st.buf = tailLexemes ls

/-- `assignment` is called with one lexeme read. -/
structure Entry₁ (token : Token) (st : State σ) (ls : List Lexeme) : Prop where
  token : token = headToken ls
  val : Holds st.yylval ls
  buf : lexemes st.buf = tailLexemes ls

/-- The other routines are called with two lexemes read. -/
structure Entry₂ (token : Token) (val : YYSType) (op : Token) (st : State σ) (ls : List Lexeme) :
    Prop where
  token : token = headToken ls
  val : Holds val ls
  next : Entry₁ op st (tailLexemes ls)

theorem entry₁ {st : State σ} {ls : List Lexeme} (h : lexemes st.buf = ls) :
    Entry₁ st.yylex.1 st.yylex.2 ls :=
  have hs := State.yylex_spec h
  ⟨hs.1, hs.2.1, hs.2.2.1⟩

theorem Entry₁.entry₂ {token : Token} {st : State σ} {ls : List Lexeme} (h : Entry₁ token st ls) :
    Entry₂ token st.yylval st.yylex.1 st.yylex.2 ls :=
  ⟨h.token, h.val, entry₁ h.buf⟩

/-! ### What is accepted is an expression -/

/-- A routine has read a phrase of category `cat` and one lexeme more. -/
def Consumes (cat : Category) (ls : List Lexeme) (st : State σ) : Prop :=
  ∃ ts e ls', ls = ts ++ ls' ∧ Derives cat ts e ∧ At st ls'

theorem Consumes.map {cat cat' : Category} {ls : List Lexeme} {st : State σ}
    (h : Consumes cat ls st) (hd : ∀ ts e, Derives cat ts e → Derives cat' ts e) :
    Consumes cat' ls st := by
  obtain ⟨ts, e, ls', hls, hde, hat⟩ := h
  exact ⟨ts, e, ls', hls, hd ts e hde, hat⟩

theorem headToken_eq {ls : List Lexeme} {t : Token} (hp : Proper ls) (h : headToken ls = t)
    (hnum : t ≠ .num) (hvar : t ≠ .var) (heof : t ≠ .eof) : ∃ ls', ls = .sym t :: ls' := by
  cases ls with
  | nil => exact absurd h.symm heof
  | cons l ls =>
    cases l with
    | num => exact absurd h.symm hnum
    | var => exact absurd h.symm hvar
    | sym u => exact ⟨ls, by rw [show u = t from h]⟩

/-- The input after a symbol that has been read ahead. -/
theorem At.sym {st : State σ} {ls : List Lexeme} {t : Token} (hat : At st ls) (hp : Proper ls)
    (h : st.lastToken = t) (hnum : t ≠ .num) (hvar : t ≠ .var) (heof : t ≠ .eof) (hbad : t ≠ .bad) :
    ∃ ls', ls = .sym t :: ls' ∧ lexemes st.buf = ls' ∧ Proper ls' := by
  obtain ⟨ls', rfl⟩ := headToken_eq hp (hat.token.symm.trans h) hnum hvar heof
  exact ⟨ls', rfl, hat.buf.trans (tailLexemes_cons (by simpa using hbad) _), hp.tail⟩

theorem Entry₁.sym {token : Token} {st : State σ} {ls : List Lexeme} (h : Entry₁ token st ls)
    (hp : Proper ls) (hnum : token ≠ .num) (hvar : token ≠ .var) (heof : token ≠ .eof)
    (hbad : token ≠ .bad) :
    ∃ ls', ls = .sym token :: ls' ∧ lexemes st.buf = ls' ∧ Proper ls' := by
  obtain ⟨ls', rfl⟩ := headToken_eq hp h.token.symm hnum hvar heof
  exact ⟨ls', rfl, h.buf.trans (tailLexemes_cons (by simpa using hbad) _), hp.tail⟩

theorem Entry₂.sym {token : Token} {val : YYSType} {op : Token} {st : State σ} {ls : List Lexeme}
    (h : Entry₂ token val op st ls) (hp : Proper ls) (hnum : token ≠ .num) (hvar : token ≠ .var)
    (heof : token ≠ .eof) (hbad : token ≠ .bad) :
    ∃ ls', ls = .sym token :: ls' ∧ Entry₁ op st ls' ∧ Proper ls' := by
  obtain ⟨ls', rfl⟩ := headToken_eq hp h.token.symm hnum hvar heof
  have hnext := h.next
  rw [tailLexemes_cons (by simpa using hbad)] at hnext
  exact ⟨ls', rfl, hnext, hp.tail⟩

theorem arithPrec_eq_level (op : Binop) : arithPrec op = level op := by
  cases op <;> decide

theorem level_lt (op : Binop) : level op < arithMaxPrec := by
  cases op <;> decide

theorem Derives.mono {k k' : ℕ} {ts : List Lexeme} {e : Expr} (h : Derives (.binary k) ts e)
    (hk : k ≤ k') : Derives (.binary k') ts e := by
  induction hk with
  | refl => exact h
  | step _ ih => exact .tighter ih

theorem Derives.ofUnary {ts : List Lexeme} {e : Expr} (h : Derives .unary ts e) (k : ℕ) :
    Derives (.binary k) ts e := (Derives.operand h).mono (Nat.zero_le k)

section
variable (ops : VarOps σ) (addr : Text → IntMax)

/-- The end of `binop2`, and the step to the operand on the right of an operator:
go on with the operators of level below `prec`. -/
def climb (fuel prec : ℕ) (noeval : Bool) (p : IntMax × State σ) :
    Except Stop (IntMax × State σ) :=
  match p.2.lastToken with
  | .binop op2 =>
    if prec ≤ arithPrec op2 then .ok p else binop2 ops addr fuel p.1 op2 prec noeval p.2
  | _ => .ok p

theorem climb_binop {fuel prec : ℕ} {noeval : Bool} {a : IntMax} {st : State σ} {op2 : Binop}
    (h : st.lastToken = .binop op2) : climb ops addr fuel prec noeval (a, st) =
      if prec ≤ arithPrec op2 then .ok (a, st) else binop2 ops addr fuel a op2 prec noeval st := by
  simp only [climb, h]

theorem climb_stop {fuel prec : ℕ} {noeval : Bool} {a : IntMax} {st : State σ}
    (h : ∀ op2, st.lastToken = .binop op2 → prec ≤ level op2) :
    climb ops addr fuel prec noeval (a, st) = .ok (a, st) := by
  unfold climb
  split
  next op2 htok => rw [if_pos ((arithPrec_eq_level op2).symm ▸ h op2 htok)]
  next => rfl

theorem binop_succ (fuel : ℕ) (token : Token) (val : YYSType) (op : Token) (noeval : Bool)
    (st : State σ) : binop ops addr (fuel + 1) token val op noeval st =
      primary ops addr fuel token val op noeval st >>= climb ops addr fuel arithMaxPrec noeval := by
  rw [binop]
  congr 1
  funext ⟨a, st⟩
  dsimp only
  split
  next op2 htok =>
    rw [climb_binop ops addr htok, arithPrec_eq_level, if_neg (level_lt op2).not_ge]
  next hno => exact (climb_stop ops addr fun op2 h => absurd h (hno op2)).symm

theorem binop2_succ (fuel : ℕ) (a : IntMax) (op : Binop) (prec : ℕ) (noeval : Bool)
    (st : State σ) : binop2 ops addr (fuel + 1) a op prec noeval st =
      let st := st.yylex
      let op' := st.2.yylex
      primary ops addr fuel st.1 st.2.yylval op'.1 noeval op'.2 >>=
        climb ops addr fuel (arithPrec op) noeval >>= fun p =>
          (if noeval then .ok p.1 else doBinop p.2.startbuf op a p.1) >>= fun v =>
            climb ops addr fuel prec noeval (v, p.2) := by
  rw [binop2]
  dsimp only
  rw [bind_assoc]
  congr 1
  funext ⟨b, st⟩
  have hclimb : (match st.lastToken with
      | .binop op2 =>
        if higherPrec op2 op then binop2 ops addr fuel b op2 (arithPrec op) noeval st
        else .ok (b, st)
      | _ => .ok (b, st)) = climb ops addr fuel (arithPrec op) noeval (b, st) := by
    split
    next op2 htok =>
      rw [climb_binop ops addr htok]
      by_cases h : arithPrec op2 < arithPrec op
      · simp [higherPrec, h, h.not_ge]
      · simp [higherPrec, h, not_lt.mp h]
    next hno => exact (climb_stop ops addr fun op2 h => absurd h (hno op2)).symm
  exact congrArg (· >>= _) hclimb

/-- What a result of each routine says about the input, for one amount of fuel. -/
structure Sound (fuel : ℕ) : Prop where
  primary : ∀ {token val op noeval st ls v st'}, Entry₂ token val op st ls → Proper ls →
    primary ops addr fuel token val op noeval st = .ok (v, st') → Consumes .unary ls st'
  binop2 : ∀ {a op prec noeval st ls v st' ts₀ e₀}, lexemes st.buf = ls → Proper ls →
    level op < prec → Derives (.binary (level op + 1)) ts₀ e₀ →
    binop2 ops addr fuel a op prec noeval st = .ok (v, st') →
    ∃ us e ls', ls = us ++ ls' ∧ Derives (.binary prec) (ts₀ ++ .sym (.binop op) :: us) e ∧
      At st' ls' ∧ ∀ op2, headToken ls' = .binop op2 → prec ≤ level op2
  binop : ∀ {token val op noeval st ls v st'}, Entry₂ token val op st ls → Proper ls →
    binop ops addr fuel token val op noeval st = .ok (v, st') → Consumes (.binary 8) ls st'
  and : ∀ {token val op noeval st ls v st'}, Entry₂ token val op st ls → Proper ls →
    and ops addr fuel token val op noeval st = .ok (v, st') → Consumes .conj ls st'
  or : ∀ {token val op noeval st ls v st'}, Entry₂ token val op st ls → Proper ls →
    or ops addr fuel token val op noeval st = .ok (v, st') → Consumes .disj ls st'
  cond : ∀ {token val op noeval st ls v st'}, Entry₂ token val op st ls → Proper ls →
    cond ops addr fuel token val op noeval st = .ok (v, st') → Consumes .cond ls st'
  assignment : ∀ {token noeval st ls v st'}, Entry₁ token st ls → Proper ls →
    assignment ops addr fuel token noeval st = .ok (v, st') → Consumes .assign ls st'

theorem Sound.zero : Sound ops addr 0 := by
  constructor <;> intros <;> simp_all [Arith.primary, Arith.binop2, Arith.binop, Arith.and,
    Arith.or, Arith.cond, Arith.assignment]

variable {ops addr} {fuel : ℕ}

/-- After a prefix operator, the operand. -/
theorem Sound.operand (ih : Sound ops addr fuel) {token op : Token} {val : YYSType} {noeval : Bool}
    {st : State σ} {ls : List Lexeme} {v : IntMax} {st' : State σ}
    (hent : Entry₂ token val op st ls) (hp : Proper ls) (hsym : token ≠ .num ∧ token ≠ .var ∧
      token ≠ .eof ∧ token ≠ .bad) (hd : ∀ ts e, Derives .unary ts e →
      ∃ e', Derives .unary (.sym token :: ts) e')
    (h : Arith.primary ops addr fuel op st.yylval st.yylex.1 noeval st.yylex.2 = .ok (v, st')) :
    Consumes .unary ls st' := by
  obtain ⟨ls, rfl, hnext, hp'⟩ := hent.sym hp hsym.1 hsym.2.1 hsym.2.2.1 hsym.2.2.2
  obtain ⟨ts, e, ls', rfl, hde, hat⟩ := ih.primary hnext.entry₂ hp' h
  obtain ⟨e', he'⟩ := hd ts e hde
  exact ⟨_, e', ls', rfl, he', hat⟩

theorem Sound.primary_succ (ih : Sound ops addr fuel) {token op : Token} {val : YYSType}
    {noeval : Bool} {st : State σ} {ls : List Lexeme} {v : IntMax} {st' : State σ}
    (hent : Entry₂ token val op st ls) (hp : Proper ls)
    (h : Arith.primary ops addr (fuel + 1) token val op noeval st = .ok (v, st')) :
    Consumes .unary ls st' := by
  have hat : At { st with lastToken := op } (tailLexemes ls) := ⟨hent.next.token, hent.next.buf⟩
  have hhead : token ≠ .eof → ∃ l ls', ls = l :: ls' := by
    intro hne
    cases ls with
    | nil => exact absurd hent.token hne
    | cons l ls' => exact ⟨l, ls', rfl⟩
  unfold Arith.primary at h
  split at h
  next =>
    obtain ⟨ls, rfl, hnext, hp'⟩ := hent.sym hp (by simp) (by simp) (by simp) (by simp)
    obtain ⟨⟨r, st₁⟩, h₁, h⟩ := Fallible.bind_eq_ok.mp h
    obtain ⟨ts, e, ls', rfl, hde, hat⟩ := ih.assignment hnext hp' h₁
    dsimp only at h
    split_ifs at h with hr
    obtain ⟨ls'', rfl, hbuf, -⟩ := hat.sym hp'.append_right hr (by simp) (by simp) (by simp)
      (by simp)
    obtain ⟨-, rfl⟩ := Prod.mk.inj (Except.ok.inj h)
    have hs := entry₁ hbuf
    exact ⟨.sym .lparen :: (ts ++ [.sym .rparen]), e, ls'', by simp, .paren hde,
      ⟨hs.token, hs.buf⟩⟩
  next =>
    obtain ⟨l, ls', rfl⟩ := hhead (by simp)
    obtain ⟨n, rfl⟩ := (hp l (by simp)).1 hent.token.symm
    obtain ⟨-, rfl⟩ := Prod.mk.inj (Except.ok.inj h)
    rw [tailLexemes_cons (by simp)] at hat
    exact ⟨[.num n], _, ls', rfl, .num n, hat⟩
  next =>
    obtain ⟨l, ls', rfl⟩ := hhead (by simp)
    obtain ⟨x, rfl⟩ := (hp l (by simp)).2.1 hent.token.symm
    rw [tailLexemes_cons (by simp)] at hat
    refine ⟨[.var x], _, ls', rfl, .var x, ?_⟩
    split_ifs at h
    · obtain ⟨-, rfl⟩ := Prod.mk.inj (Except.ok.inj h)
      exact hat
    · obtain ⟨w, -, h⟩ := Fallible.bind_eq_ok.mp h
      obtain ⟨-, rfl⟩ := Prod.mk.inj (Except.ok.inj h)
      exact hat
  next => exact ih.operand hent hp (by simp) (fun ts e hd => ⟨_, .plus hd⟩) h
  next =>
    obtain ⟨⟨r, st₁⟩, h₁, h⟩ := Fallible.bind_eq_ok.mp h
    obtain ⟨-, rfl⟩ := Prod.mk.inj (Except.ok.inj h)
    exact ih.operand hent hp (by simp) (fun ts e hd => ⟨_, .neg hd⟩) h₁
  next =>
    obtain ⟨⟨r, st₁⟩, h₁, h⟩ := Fallible.bind_eq_ok.mp h
    obtain ⟨-, rfl⟩ := Prod.mk.inj (Except.ok.inj h)
    exact ih.operand hent hp (by simp) (fun ts e hd => ⟨_, .not hd⟩) h₁
  next =>
    obtain ⟨⟨r, st₁⟩, h₁, h⟩ := Fallible.bind_eq_ok.mp h
    obtain ⟨-, rfl⟩ := Prod.mk.inj (Except.ok.inj h)
    exact ih.operand hent hp (by simp) (fun ts e hd => ⟨_, .bnot hd⟩) h₁
  next => simp at h

/-- From a chain of operators of level below `k` to one of level below `prec`. -/
theorem Sound.climb (ih : Sound ops addr fuel) {k prec : ℕ} {noeval : Bool} {a : IntMax}
    {st : State σ} {ts ls : List Lexeme} {e : Expr} {r : IntMax × State σ}
    (hde : Derives (.binary k) ts e) (hat : At st ls) (hp : Proper ls) (hk : k ≤ prec)
    (hno : ∀ op2, headToken ls = .binop op2 → k ≤ level op2 + 1)
    (h : Arith.climb ops addr fuel prec noeval (a, st) = .ok r) :
    ∃ us e' ls', ls = us ++ ls' ∧ Derives (.binary prec) (ts ++ us) e' ∧ At r.2 ls' ∧
      ∀ op2, headToken ls' = .binop op2 → prec ≤ level op2 := by
  by_cases hstop : ∀ op2, st.lastToken = .binop op2 → prec ≤ level op2
  · rw [climb_stop ops addr hstop] at h
    obtain rfl := Except.ok.inj h
    exact ⟨[], e, ls, rfl, by simpa using hde.mono hk, hat,
      fun op2 h => hstop op2 (hat.token.trans h)⟩
  · push Not at hstop
    obtain ⟨op2, htok, hlt⟩ := hstop
    rw [climb_binop ops addr htok, arithPrec_eq_level, if_neg hlt.not_ge] at h
    obtain ⟨ls, rfl, hbuf, hp⟩ := hat.sym hp htok (by simp) (by simp) (by simp) (by simp)
    obtain ⟨us, e', ls', rfl, hd', hat', hno'⟩ := ih.binop2 hbuf hp hlt
      (hde.mono (hno op2 rfl)) h
    exact ⟨_, e', ls', by rw [List.cons_append], hd', hat', hno'⟩

theorem Sound.binop2_succ (ih : Sound ops addr fuel) {a : IntMax} {op : Binop} {prec : ℕ}
    {noeval : Bool} {st : State σ} {ls : List Lexeme} {v : IntMax} {st' : State σ}
    {ts₀ : List Lexeme} {e₀ : Expr} (hls : lexemes st.buf = ls) (hp : Proper ls)
    (hlt : level op < prec) (hd₀ : Derives (.binary (level op + 1)) ts₀ e₀)
    (h : Arith.binop2 ops addr (fuel + 1) a op prec noeval st = .ok (v, st')) :
    ∃ us e ls', ls = us ++ ls' ∧ Derives (.binary prec) (ts₀ ++ .sym (.binop op) :: us) e ∧
      At st' ls' ∧ ∀ op2, headToken ls' = .binop op2 → prec ≤ level op2 := by
  rw [Arith.binop2_succ, bind_assoc] at h
  obtain ⟨⟨b, st₁⟩, h₁, h⟩ := Fallible.bind_eq_ok.mp h
  obtain ⟨ts, e, ls₁, rfl, hde, hat⟩ := ih.primary (entry₁ hls).entry₂ hp h₁
  obtain ⟨⟨c, st₂⟩, h₂, h⟩ := Fallible.bind_eq_ok.mp h
  obtain ⟨us, e', ls₂, rfl, hd', hat', hno⟩ :=
    ih.climb (hde.ofUnary 0) hat hp.append_right (Nat.zero_le _) (by simp) h₂
  obtain ⟨a', -, h⟩ := Fallible.bind_eq_ok.mp h
  rw [arithPrec_eq_level] at hd' hno
  obtain ⟨vs, e'', ls₃, rfl, hd'', hat'', hno'⟩ := ih.climb (.bin hd₀ hd') hat'
    hp.append_right.append_right hlt (fun op2 h => Nat.succ_le_succ (hno op2 h)) h
  exact ⟨ts ++ us ++ vs, e'', ls₃, by simp, by simpa using hd'', hat'', hno'⟩

theorem Sound.binop_succ (ih : Sound ops addr fuel) {token op : Token} {val : YYSType}
    {noeval : Bool} {st : State σ} {ls : List Lexeme} {v : IntMax} {st' : State σ}
    (hent : Entry₂ token val op st ls) (hp : Proper ls)
    (h : Arith.binop ops addr (fuel + 1) token val op noeval st = .ok (v, st')) :
    Consumes (.binary 8) ls st' := by
  rw [Arith.binop_succ] at h
  obtain ⟨⟨a, st₁⟩, h₁, h⟩ := Fallible.bind_eq_ok.mp h
  obtain ⟨ts, e, ls₁, rfl, hde, hat⟩ := ih.primary hent hp h₁
  obtain ⟨us, e', ls₂, rfl, hd', hat', -⟩ :=
    ih.climb (hde.ofUnary 0) hat hp.append_right (Nat.zero_le _) (by simp) h
  exact ⟨ts ++ us, e', ls₂, by simp, hd', hat'⟩

theorem Sound.and_succ (ih : Sound ops addr fuel) {token op : Token} {val : YYSType}
    {noeval : Bool} {st : State σ} {ls : List Lexeme} {v : IntMax} {st' : State σ}
    (hent : Entry₂ token val op st ls) (hp : Proper ls)
    (h : Arith.and ops addr (fuel + 1) token val op noeval st = .ok (v, st')) :
    Consumes .conj ls st' := by
  unfold Arith.and at h
  obtain ⟨⟨a, st₁⟩, h₁, h⟩ := Fallible.bind_eq_ok.mp h
  obtain ⟨ts, e, ls₁, rfl, hde, hat⟩ := ih.binop hent hp h₁
  dsimp only at h
  split_ifs at h with htok
  · obtain ⟨ls₂, rfl, hbuf, hp'⟩ := hat.sym hp.append_right htok (by simp) (by simp) (by simp)
      (by simp)
    obtain ⟨⟨b, st₂⟩, h₂, h⟩ := Fallible.bind_eq_ok.mp h
    obtain ⟨-, rfl⟩ := Prod.mk.inj (Except.ok.inj h)
    obtain ⟨us, e', ls₃, rfl, hd', hat'⟩ := ih.and (entry₁ hbuf).entry₂ hp' h₂
    exact ⟨_, _, ls₃, by simp, .conj hde hd', hat'⟩
  · obtain ⟨-, rfl⟩ := Prod.mk.inj (Except.ok.inj h)
    exact ⟨ts, e, ls₁, rfl, .single hde, hat⟩

theorem Sound.or_succ (ih : Sound ops addr fuel) {token op : Token} {val : YYSType}
    {noeval : Bool} {st : State σ} {ls : List Lexeme} {v : IntMax} {st' : State σ}
    (hent : Entry₂ token val op st ls) (hp : Proper ls)
    (h : Arith.or ops addr (fuel + 1) token val op noeval st = .ok (v, st')) :
    Consumes .disj ls st' := by
  unfold Arith.or at h
  obtain ⟨⟨a, st₁⟩, h₁, h⟩ := Fallible.bind_eq_ok.mp h
  obtain ⟨ts, e, ls₁, rfl, hde, hat⟩ := ih.and hent hp h₁
  dsimp only at h
  split_ifs at h with htok
  · obtain ⟨ls₂, rfl, hbuf, hp'⟩ := hat.sym hp.append_right htok (by simp) (by simp) (by simp)
      (by simp)
    obtain ⟨⟨b, st₂⟩, h₂, h⟩ := Fallible.bind_eq_ok.mp h
    obtain ⟨-, rfl⟩ := Prod.mk.inj (Except.ok.inj h)
    obtain ⟨us, e', ls₃, rfl, hd', hat'⟩ := ih.or (entry₁ hbuf).entry₂ hp' h₂
    exact ⟨_, _, ls₃, by simp, .disj hde hd', hat'⟩
  · obtain ⟨-, rfl⟩ := Prod.mk.inj (Except.ok.inj h)
    exact ⟨ts, e, ls₁, rfl, .ofConj hde, hat⟩

theorem Sound.cond_succ (ih : Sound ops addr fuel) {token op : Token} {val : YYSType}
    {noeval : Bool} {st : State σ} {ls : List Lexeme} {v : IntMax} {st' : State σ}
    (hent : Entry₂ token val op st ls) (hp : Proper ls)
    (h : Arith.cond ops addr (fuel + 1) token val op noeval st = .ok (v, st')) :
    Consumes .cond ls st' := by
  unfold Arith.cond at h
  obtain ⟨⟨a, st₁⟩, h₁, h⟩ := Fallible.bind_eq_ok.mp h
  obtain ⟨ts, e, ls₁, rfl, hde, hat⟩ := ih.or hent hp h₁
  dsimp only at h
  split at h
  next htok =>
    obtain ⟨ls₂, rfl, hbuf, hp₂⟩ := hat.sym hp.append_right htok (by simp) (by simp) (by simp)
      (by simp)
    obtain ⟨⟨b, st₂⟩, h₂, h⟩ := Fallible.bind_eq_ok.mp h
    obtain ⟨us, e₂, ls₃, rfl, hd₂, hat₂⟩ := ih.assignment (entry₁ hbuf) hp₂ h₂
    dsimp only at h
    split at h
    next hcolon =>
      obtain ⟨ls₄, rfl, hbuf₂, hp₃⟩ := hat₂.sym hp₂.append_right hcolon (by simp) (by simp)
        (by simp) (by simp)
      obtain ⟨⟨c, st₃⟩, h₃, h⟩ := Fallible.bind_eq_ok.mp h
      obtain ⟨-, rfl⟩ := Prod.mk.inj (Except.ok.inj h)
      obtain ⟨vs, e₃, ls₅, rfl, hd₃, hat₃⟩ := ih.cond (entry₁ hbuf₂).entry₂ hp₃ h₃
      exact ⟨_, _, ls₅, by simp, .cond hde hd₂ hd₃, hat₃⟩
    next => simp at h
  next =>
    obtain ⟨-, rfl⟩ := Prod.mk.inj (Except.ok.inj h)
    exact ⟨ts, e, ls₁, rfl, .ofDisj hde, hat⟩

theorem Token.assignOp_ne {t : Token} {assign : Option Binop} (h : t.assignOp = some assign) :
    t ≠ .num ∧ t ≠ .var ∧ t ≠ .eof ∧ t ≠ .bad := by
  refine ⟨?_, ?_, ?_, ?_⟩ <;> rintro rfl <;> simp [Token.assignOp] at h

theorem Sound.assignment_succ (ih : Sound ops addr fuel) {token : Token} {noeval : Bool}
    {st : State σ} {ls : List Lexeme} {v : IntMax} {st' : State σ} (hent : Entry₁ token st ls)
    (hp : Proper ls)
    (h : Arith.assignment ops addr (fuel + 1) token noeval st = .ok (v, st')) :
    Consumes .assign ls st' := by
  unfold Arith.assignment at h
  dsimp only at h
  split at h
  next => exact (ih.cond hent.entry₂ hp h).map fun _ _ hd => .ofCond hd
  next assign hop =>
    split_ifs at hop with hvar
    obtain ⟨hnum, hvar', heof, hbad⟩ := Token.assignOp_ne hop
    cases ls with
    | nil => exact absurd (hent.token.symm.trans hvar) (by simp [headToken])
    | cons l ls =>
    obtain ⟨x, rfl⟩ := (hp l (by simp)).2.1 (hent.token.symm.trans hvar)
    have hnext := entry₁ hent.buf
    rw [tailLexemes_cons (by simp)] at hnext
    obtain ⟨ls₂, rfl, hbuf, hp₂⟩ := hnext.sym hp.tail hnum hvar' heof hbad
    obtain ⟨⟨r, st₁⟩, h₁, h⟩ := Fallible.bind_eq_ok.mp h
    obtain ⟨ts, e, ls₃, rfl, hde, hat⟩ := ih.assignment (entry₁ hbuf) hp₂ h₁
    refine ⟨.var x :: .sym _ :: ts, _, ls₃, by simp, .assign hop hde, ?_⟩
    dsimp only at h
    split_ifs at h
    · obtain ⟨-, rfl⟩ := Prod.mk.inj (Except.ok.inj h)
      exact hat
    · obtain ⟨w, -, h⟩ := Fallible.bind_eq_ok.mp h
      obtain ⟨⟨w', vars⟩, -, h⟩ := Fallible.bind_eq_ok.mp h
      obtain ⟨-, rfl⟩ := Prod.mk.inj (Except.ok.inj h)
      exact ⟨hat.token, hat.buf⟩

variable (ops addr) in
theorem sound (fuel : ℕ) : Sound ops addr fuel := by
  induction fuel with
  | zero => exact Sound.zero ops addr
  | succ fuel ih =>
    exact ⟨ih.primary_succ, ih.binop2_succ, ih.binop_succ, ih.and_succ, ih.or_succ, ih.cond_succ,
      ih.assignment_succ⟩

end
end Bootsh.Arith
