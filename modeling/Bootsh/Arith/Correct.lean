import Bootsh.Arith.Complete

/-!
`arith` against the grammar: it never runs out of fuel, it accepts exactly the
expressions, and computes their values. It also accepts constants that do not
fit in `intmax_t`, because `yylex` does not look at the error of `strtoimax`.
-/
namespace Bootsh.Arith

variable {σ : Type}

/-! ### Fuel -/

theorem bind_ne_fuel {α β : Type} {x : Except Stop α} {f : α → Except Stop β}
    (hx : x ≠ .error .fuel) (hf : ∀ a, x = .ok a → f a ≠ .error .fuel) :
    x >>= f ≠ .error .fuel := by
  cases x with
  | error stop => exact fun h => hx (congrArg Except.error (Except.error.inj h))
  | ok a => exact hf a rfl

theorem pure_ne_fuel {α : Type} (a : α) : (pure a : Except Stop α) ≠ .error .fuel := nofun

theorem yyerror_ne_fuel {α : Type} (s : Text) (msg : String) :
    (.error (yyerror s msg) : Except Stop α) ≠ .error .fuel := nofun

theorem liftError_ne_fuel {α : Type} (x : Except Text α) : liftError x ≠ .error .fuel := by
  cases x <;> exact nofun

theorem doBinop_ne_fuel (s : Text) (op : Binop) (a b : IntMax) :
    doBinop s op a b ≠ .error .fuel := by
  unfold doBinop
  split <;> (try split_ifs) <;> exact nofun

theorem assignValue_ne_fuel (ops : VarOps σ) (s : Text) (op : Option Binop) (x : Text) (v : IntMax)
    (vars : σ) : assignValue ops s op x v vars ≠ .error .fuel := by
  cases op with
  | none => exact nofun
  | some op => exact bind_ne_fuel (liftError_ne_fuel _) fun old _ => doBinop_ne_fuel s op old v

theorem Consumes.shorter {cat : Category} {ls : List Lexeme} {st : State σ}
    (h : Consumes cat ls st) (hp : Proper ls) :
    ∃ ls', At st ls' ∧ Proper ls' ∧ ls'.length < ls.length := by
  obtain ⟨ts, e, ls', rfl, hd, hat⟩ := h
  have := List.length_pos_iff.mpr hd.ne_nil
  exact ⟨ls', hat, hp.append_right, by simpa⟩

section
variable (ops : VarOps σ) (addr : Text → IntMax)

/-- Fuel that is enough for each routine on `ls`. -/
structure Total (fuel : ℕ) : Prop where
  primary : ∀ {token val op noeval st ls}, Entry₂ token val op st ls → Proper ls →
    8 * ls.length + 1 ≤ fuel → primary ops addr fuel token val op noeval st ≠ .error .fuel
  binop2 : ∀ {a op prec noeval st ls}, lexemes st.buf = ls → Proper ls →
    8 * ls.length + 2 ≤ fuel → binop2 ops addr fuel a op prec noeval st ≠ .error .fuel
  binop : ∀ {token val op noeval st ls}, Entry₂ token val op st ls → Proper ls →
    8 * ls.length + 3 ≤ fuel → binop ops addr fuel token val op noeval st ≠ .error .fuel
  and : ∀ {token val op noeval st ls}, Entry₂ token val op st ls → Proper ls →
    8 * ls.length + 4 ≤ fuel → and ops addr fuel token val op noeval st ≠ .error .fuel
  or : ∀ {token val op noeval st ls}, Entry₂ token val op st ls → Proper ls →
    8 * ls.length + 5 ≤ fuel → or ops addr fuel token val op noeval st ≠ .error .fuel
  cond : ∀ {token val op noeval st ls}, Entry₂ token val op st ls → Proper ls →
    8 * ls.length + 6 ≤ fuel → cond ops addr fuel token val op noeval st ≠ .error .fuel
  assignment : ∀ {token noeval st ls}, Entry₁ token st ls → Proper ls →
    8 * ls.length + 7 ≤ fuel → assignment ops addr fuel token noeval st ≠ .error .fuel

theorem Total.zero : Total ops addr 0 := by
  constructor <;> intros <;> omega

variable {ops addr} {fuel : ℕ}

theorem Total.primary_succ (ih : Total ops addr fuel) {token op : Token} {val : YYSType}
    {noeval : Bool} {st : State σ} {ls : List Lexeme} (hent : Entry₂ token val op st ls)
    (hp : Proper ls) (hfuel : 8 * ls.length + 1 ≤ fuel + 1) :
    Arith.primary ops addr (fuel + 1) token val op noeval st ≠ .error .fuel := by
  have operand (hnum : token ≠ .num) (hvar : token ≠ .var) (heof : token ≠ .eof)
      (hbad : token ≠ .bad) :
      Arith.primary ops addr fuel op st.yylval st.yylex.1 noeval st.yylex.2 ≠ .error .fuel := by
    obtain ⟨ls', rfl, hnext, hp'⟩ := hent.sym hp hnum hvar heof hbad
    rw [List.length_cons] at hfuel
    exact ih.primary hnext.entry₂ hp' (by omega)
  unfold Arith.primary
  split
  next =>
    obtain ⟨ls', rfl, hnext, hp'⟩ := hent.sym hp (by simp) (by simp) (by simp) (by simp)
    rw [List.length_cons] at hfuel
    refine bind_ne_fuel (ih.assignment hnext hp' (by omega)) fun p _ => ?_
    dsimp only
    split
    · exact pure_ne_fuel _
    · exact yyerror_ne_fuel _ _
  next => exact pure_ne_fuel _
  next =>
    split
    · exact pure_ne_fuel _
    · exact bind_ne_fuel (liftError_ne_fuel _) fun _ _ => pure_ne_fuel _
  next => exact operand (by simp) (by simp) (by simp) (by simp)
  next =>
    exact bind_ne_fuel (operand (by simp) (by simp) (by simp) (by simp)) fun _ _ => pure_ne_fuel _
  next =>
    exact bind_ne_fuel (operand (by simp) (by simp) (by simp) (by simp)) fun _ _ => pure_ne_fuel _
  next =>
    exact bind_ne_fuel (operand (by simp) (by simp) (by simp) (by simp)) fun _ _ => pure_ne_fuel _
  next => exact yyerror_ne_fuel _ _

theorem Total.climb (ih : Total ops addr fuel) {prec : ℕ} {noeval : Bool} {a : IntMax}
    {st : State σ} {ls : List Lexeme} (hat : At st ls) (hp : Proper ls)
    (hfuel : 8 * ls.length ≤ fuel + 6) :
    climb ops addr fuel prec noeval (a, st) ≠ .error .fuel := by
  unfold Arith.climb
  split
  next op2 htok =>
    split_ifs
    · exact pure_ne_fuel _
    · obtain ⟨ls', rfl, hbuf, hp'⟩ := hat.sym hp htok (by simp) (by simp) (by simp) (by simp)
      rw [List.length_cons] at hfuel
      exact ih.binop2 hbuf hp' (by omega)
  next => exact pure_ne_fuel _

theorem Total.binop2_succ (ih : Total ops addr fuel) {a : IntMax} {op : Binop} {prec : ℕ}
    {noeval : Bool} {st : State σ} {ls : List Lexeme} (hls : lexemes st.buf = ls) (hp : Proper ls)
    (hfuel : 8 * ls.length + 2 ≤ fuel + 1) :
    Arith.binop2 ops addr (fuel + 1) a op prec noeval st ≠ .error .fuel := by
  have hent := (entry₁ hls).entry₂
  rw [Arith.binop2_succ, bind_assoc]
  refine bind_ne_fuel (ih.primary hent hp (by omega)) fun p h₁ => ?_
  obtain ⟨b, st₁⟩ := p
  obtain ⟨ts, e, ls₁, rfl, hde, hat⟩ := (sound ops addr fuel).primary hent hp h₁
  have hts := List.length_pos_iff.mpr hde.ne_nil
  rw [List.length_append] at hfuel
  refine bind_ne_fuel (ih.climb hat hp.append_right (by omega)) fun p h₂ => ?_
  obtain ⟨c, st₂⟩ := p
  obtain ⟨us, -, ls₂, rfl, -, hat', -⟩ := (sound ops addr fuel).climb (hde.ofUnary 0) hat
    hp.append_right (Nat.zero_le _) (by simp) h₂
  rw [List.length_append] at hfuel
  refine bind_ne_fuel ?_ fun v _ => ih.climb hat' hp.append_right.append_right (by omega)
  split_ifs
  · exact pure_ne_fuel _
  · exact doBinop_ne_fuel _ _ _ _

theorem Total.binop_succ (ih : Total ops addr fuel) {token op : Token} {val : YYSType}
    {noeval : Bool} {st : State σ} {ls : List Lexeme} (hent : Entry₂ token val op st ls)
    (hp : Proper ls) (hfuel : 8 * ls.length + 3 ≤ fuel + 1) :
    Arith.binop ops addr (fuel + 1) token val op noeval st ≠ .error .fuel := by
  rw [Arith.binop_succ]
  refine bind_ne_fuel (ih.primary hent hp (by omega)) fun p h₁ => ?_
  obtain ⟨a, st₁⟩ := p
  obtain ⟨ls₁, hat, hp₁, hlt⟩ := ((sound ops addr fuel).primary hent hp h₁).shorter hp
  exact ih.climb hat hp₁ (by omega)

theorem Total.and_succ (ih : Total ops addr fuel) {token op : Token} {val : YYSType}
    {noeval : Bool} {st : State σ} {ls : List Lexeme} (hent : Entry₂ token val op st ls)
    (hp : Proper ls) (hfuel : 8 * ls.length + 4 ≤ fuel + 1) :
    Arith.and ops addr (fuel + 1) token val op noeval st ≠ .error .fuel := by
  unfold Arith.and
  refine bind_ne_fuel (ih.binop hent hp (by omega)) fun p h₁ => ?_
  obtain ⟨a, st₁⟩ := p
  obtain ⟨ls₁, hat, hp₁, hlt⟩ := ((sound ops addr fuel).binop hent hp h₁).shorter hp
  dsimp only
  split
  next htok =>
    obtain ⟨ls₂, rfl, hbuf, hp₂⟩ := hat.sym hp₁ htok (by simp) (by simp) (by simp) (by simp)
    rw [List.length_cons] at hlt
    exact bind_ne_fuel (ih.and (entry₁ hbuf).entry₂ hp₂ (by omega)) fun _ _ => pure_ne_fuel _
  next => exact pure_ne_fuel _

theorem Total.or_succ (ih : Total ops addr fuel) {token op : Token} {val : YYSType}
    {noeval : Bool} {st : State σ} {ls : List Lexeme} (hent : Entry₂ token val op st ls)
    (hp : Proper ls) (hfuel : 8 * ls.length + 5 ≤ fuel + 1) :
    Arith.or ops addr (fuel + 1) token val op noeval st ≠ .error .fuel := by
  unfold Arith.or
  refine bind_ne_fuel (ih.and hent hp (by omega)) fun p h₁ => ?_
  obtain ⟨a, st₁⟩ := p
  obtain ⟨ls₁, hat, hp₁, hlt⟩ := ((sound ops addr fuel).and hent hp h₁).shorter hp
  dsimp only
  split
  next htok =>
    obtain ⟨ls₂, rfl, hbuf, hp₂⟩ := hat.sym hp₁ htok (by simp) (by simp) (by simp) (by simp)
    rw [List.length_cons] at hlt
    exact bind_ne_fuel (ih.or (entry₁ hbuf).entry₂ hp₂ (by omega)) fun _ _ => pure_ne_fuel _
  next => exact pure_ne_fuel _

theorem Total.cond_succ (ih : Total ops addr fuel) {token op : Token} {val : YYSType}
    {noeval : Bool} {st : State σ} {ls : List Lexeme} (hent : Entry₂ token val op st ls)
    (hp : Proper ls) (hfuel : 8 * ls.length + 6 ≤ fuel + 1) :
    Arith.cond ops addr (fuel + 1) token val op noeval st ≠ .error .fuel := by
  unfold Arith.cond
  refine bind_ne_fuel (ih.or hent hp (by omega)) fun p h₁ => ?_
  obtain ⟨a, st₁⟩ := p
  obtain ⟨ls₁, hat, hp₁, hlt⟩ := ((sound ops addr fuel).or hent hp h₁).shorter hp
  dsimp only
  split
  next htok =>
    obtain ⟨ls₂, rfl, hbuf, hp₂⟩ := hat.sym hp₁ htok (by simp) (by simp) (by simp) (by simp)
    rw [List.length_cons] at hlt
    refine bind_ne_fuel (ih.assignment (entry₁ hbuf) hp₂ (by omega)) fun p h₂ => ?_
    obtain ⟨b, st₂⟩ := p
    obtain ⟨ls₃, hat₂, hp₃, hlt₂⟩ :=
      ((sound ops addr fuel).assignment (entry₁ hbuf) hp₂ h₂).shorter hp₂
    dsimp only
    split
    next hcolon =>
      obtain ⟨ls₄, rfl, hbuf₂, hp₄⟩ := hat₂.sym hp₃ hcolon (by simp) (by simp) (by simp) (by simp)
      rw [List.length_cons] at hlt₂
      exact bind_ne_fuel (ih.cond (entry₁ hbuf₂).entry₂ hp₄ (by omega)) fun _ _ => pure_ne_fuel _
    next => exact yyerror_ne_fuel _ _
  next => exact pure_ne_fuel _

theorem Total.assignment_succ (ih : Total ops addr fuel) {token : Token} {noeval : Bool}
    {st : State σ} {ls : List Lexeme} (hent : Entry₁ token st ls) (hp : Proper ls)
    (hfuel : 8 * ls.length + 7 ≤ fuel + 1) :
    Arith.assignment ops addr (fuel + 1) token noeval st ≠ .error .fuel := by
  unfold Arith.assignment
  dsimp only
  split
  next => exact ih.cond hent.entry₂ hp (by omega)
  next assign hop =>
    split_ifs at hop with hvar
    obtain ⟨hnum, hvar', heof, hbad⟩ := Token.assignOp_ne hop
    cases ls with
    | nil => exact absurd (hent.token.symm.trans hvar) (by simp [headToken])
    | cons l ls =>
    obtain ⟨x, rfl⟩ := (hp l (by simp)).2.1 (hent.token.symm.trans hvar)
    have hnext := entry₁ hent.buf
    rw [tailLexemes_cons (by simp)] at hnext
    obtain ⟨ls₂, rfl, hbuf, hp₂⟩ := hnext.sym hp.tail hnum hvar' heof hbad
    rw [List.length_cons, List.length_cons] at hfuel
    refine bind_ne_fuel (ih.assignment (entry₁ hbuf) hp₂ (by omega)) fun p _ => ?_
    obtain ⟨r, st₁⟩ := p
    dsimp only
    split
    · exact pure_ne_fuel _
    · exact bind_ne_fuel (assignValue_ne_fuel ops _ _ _ _ _) fun _ _ =>
        bind_ne_fuel (liftError_ne_fuel _) fun _ _ => pure_ne_fuel _

variable (ops addr) in
theorem total (fuel : ℕ) : Total ops addr fuel := by
  induction fuel with
  | zero => exact Total.zero ops addr
  | succ fuel ih =>
    exact ⟨ih.primary_succ, ih.binop2_succ, ih.binop_succ, ih.and_succ, ih.or_succ, ih.cond_succ,
      ih.assignment_succ⟩

end

section
variable {ops : VarOps σ} {addr : Text → IntMax} {st : State σ} {s : Text} {e : Expr}

/-- The first token of `arith`. -/
theorem arith_entry : Entry₁ { st with startbuf := s, buf := s }.yylex.1
    { st with startbuf := s, buf := s }.yylex.2 (lexemes s) := entry₁ rfl

variable (ops addr st s)

theorem assignment_fuel : assignment ops addr (arithFuel s)
    { st with startbuf := s, buf := s }.yylex.1 false { st with startbuf := s, buf := s }.yylex.2 ≠
      .error .fuel := by
  refine (total ops addr _).assignment arith_entry (lexemes_proper s) ?_
  have := lexemes_length s
  unfold arithFuel
  omega

theorem arith_fuel : arith ops addr st s ≠ .error .fuel := by
  refine bind_ne_fuel (assignment_fuel ops addr st s) fun p _ => ?_
  dsimp only
  split
  · exact pure_ne_fuel _
  · exact yyerror_ne_fuel _ _

variable {ops addr st s}

theorem Derives.no_bad {cat : Category} {ts : List Lexeme} (h : Derives cat ts e) :
    .sym .bad ∉ ts := by
  induction h with
  | assign ht _ ih =>
    have := (Token.assignOp_ne ht).2.2.2
    simp_all [eq_comm]
  | _ => simp_all

/-- Only expressions are accepted. -/
theorem expression_of_arith {v : IntMax} {st' : State σ}
    (h : arith ops addr st s = .ok (v, st')) : ∃ e, Expression s e := by
  obtain ⟨⟨r, st₁⟩, h₁, h⟩ := Fallible.bind_eq_ok.mp h
  obtain ⟨ts, e, ls', hls, hde, hat⟩ :=
    (sound ops addr _).assignment arith_entry (lexemes_proper s) h₁
  dsimp only at h
  split at h
  next heof =>
    have hp := lexemes_proper s
    rw [hls] at hp
    cases ls' with
    | nil => exact ⟨e, ts, lexes_iff.mpr ⟨by simpa using hls, hde.no_bad⟩, hde⟩
    | cons l ls' => exact absurd (hat.token.symm.trans heof) (hp l (by simp)).2.2
  next => simp at h

theorem Agrees.final {m : Except Stop (IntMax × σ)} {r : Except Stop (IntMax × State σ)}
    (h : Agrees s [] m r) (hfuel : r ≠ .error .fuel) :
    (r >>= fun p => if p.2.lastToken = .eof then .ok p
      else .error (yyerror p.2.startbuf "expecting EOF")).map (fun p => (p.1, p.2.vars)) = m := by
  have h := h.resolve_left hfuel
  cases m with
  | error stop =>
    obtain rfl := h
    rfl
  | ok p =>
    obtain ⟨v, vars⟩ := p
    obtain ⟨st', rfl, hat, -, rfl⟩ := h
    have heof : st'.lastToken = .eof := hat.token
    change Except.map _ (if st'.lastToken = .eof then _ else _) = _
    rw [if_pos heof]
    rfl

variable (ops addr st) in
/-- Every expression is accepted, with its value. -/
theorem arith_expression (h : Expression s e) :
    (arith ops addr st s).map (fun p => (p.1, p.2.vars)) = eval ops s e st.vars := by
  obtain ⟨ls, hls, hde⟩ := h
  obtain ⟨rfl, -⟩ := lexes_iff.mp hls
  have hent := @arith_entry _ st s
  have hfuel := assignment_fuel ops addr st s
  rw [← List.append_nil (lexemes s)] at hent
  have hagree := complete ops addr hde (arithFuel s) false hent
    (by simp [Ends, headToken, Token.assignOp])
  exact hagree.final hfuel

/-! ### The claimed language -/

/-- The expressions of the shell: constants are in range. -/
def InGrammar (s : Text) (e : Expr) : Prop := Expression s e ∧ ConstantsInRange s

/-- An error is raised; an operation that C leaves undefined may do so too. -/
def Raises {α : Type} (r : Except Stop α) : Prop :=
  (∃ msg, r = .error (.shError msg)) ∨ r = .error .undefined ∨ r = .error .trap

variable (ops addr st s) in
/-- `arith` computes the value of `s` if the grammar has it, and raises an error if not. -/
def MeetsGrammar : Prop :=
  (∀ e, InGrammar s e →
    (arith ops addr st s).map (fun p => (p.1, p.2.vars)) = eval ops s e st.vars) ∧
  ((¬ ∃ e, InGrammar s e) → Raises (arith ops addr st s))

theorem raises_of_ne_ok (h : ∀ p, arith ops addr st s ≠ .ok p) : Raises (arith ops addr st s) := by
  have hfuel := arith_fuel ops addr st s
  unfold Raises
  cases hr : arith ops addr st s with
  | ok p => exact absurd hr (h p)
  | error stop =>
    cases stop with
    | fuel => exact absurd hr hfuel
    | undefined => exact .inr (.inl rfl)
    | trap => exact .inr (.inr rfl)
    | shError msg => exact .inl ⟨msg, rfl⟩

theorem Raises.ne_ok {α : Type} {r : Except Stop α} (h : Raises r) (a : α) : r ≠ .ok a := by
  rcases h with ⟨msg, rfl⟩ | rfl | rfl <;> exact nofun

/-- No variable is set, and every name can be assigned. -/
def noVars : VarOps Unit where
  lookupvar _ _ := none
  setvar _ _ _ := .ok ()

def fresh : State Unit := ⟨[], [], .eof, .val 0, ()⟩

theorem Expression.of_num {n : ℕ} (h : Lexes s [.num n]) : Expression s (.num n) :=
  ⟨_, h, .ofCond (.ofDisj (.ofConj (.single ((Derives.num n).ofUnary 8))))⟩

end
end Bootsh.Arith
