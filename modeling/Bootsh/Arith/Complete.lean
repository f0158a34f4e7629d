import Bootsh.Arith.Sound

/-!
Every expression of the grammar is accepted, with the value and the variables
`eval` gives it. In a part of an expression that is only skipped, `noeval` is
set: nothing is read or assigned, and the value, which `skim` gives, is not used.
-/
namespace Bootsh.Arith

variable {σ : Type}

theorem ofInt_eq {a : IntMax} {v : ℤ} (h : a.toInt = v) : BitVec.ofInt 64 v = a :=
  h ▸ BitVec.ofInt_toInt

theorem ofInt_ofBool (p : Prop) [Decidable p] :
    BitVec.ofInt 64 (if p then 1 else 0) = ofBool (decide p) := by
  by_cases h : p <;> simp [h, ofBool]

theorem ofInt_sub (a b : IntMax) : BitVec.ofInt 64 (a.toInt - b.toInt) = a - b :=
  BitVec.eq_of_toInt_eq (by rw [BitVec.toInt_ofInt, BitVec.toInt_sub])

theorem ofInt_shiftLeft (a : IntMax) (n : ℕ) :
    BitVec.ofInt 64 (a.toInt * 2 ^ n) = a <<< n := by
  apply BitVec.eq_of_toInt_eq
  rw [BitVec.toInt_ofInt, BitVec.toInt_shiftLeft, BitVec.toInt_eq_toNat_bmod, Int.bmod_mul_bmod]
  simp [Nat.shiftLeft_eq]

theorem ofInt_sshiftRight (a : IntMax) (n : ℕ) :
    BitVec.ofInt 64 (a.toInt / 2 ^ n) = a.sshiftRight n :=
  ofInt_eq (by rw [BitVec.toInt_sshiftRight, Int.shiftRight_eq_div_pow]; norm_cast)

theorem toNat_toInt {b : IntMax} (h : 0 ≤ b.toInt) : b.toInt.toNat = b.toNat := by
  rw [BitVec.toInt_eq_toNat_cond] at h ⊢
  have := b.isLt
  split_ifs at h ⊢ <;> omega

theorem toInt_eq_zero {b : IntMax} : b.toInt = 0 ↔ b = 0 := by
  rw [← BitVec.toInt_inj]
  rfl

theorem toInt_eq_neg_one {b : IntMax} : b.toInt = -1 ↔ b = -1 := by
  rw [← BitVec.toInt_inj]
  rfl

theorem toInt_eq_min {a : IntMax} : a.toInt = -2 ^ 63 ↔ a = BitVec.intMin 64 := by
  rw [← BitVec.toInt_inj]
  rfl

/-- The operators compute on 64 bits what the grammar's operators are on integers. -/
theorem doBinop_eq (s : Text) (op : Binop) (a b : IntMax) :
    doBinop s op a b = applyBinop s op a b := by
  have hshift : shiftInRange b = true ↔ 0 ≤ b.toInt ∧ b.toInt < 64 := by simp [shiftInRange]
  have hdiv : divides .div = true := rfl
  have hrem : divides .rem = true := rfl
  cases op
  case rem | div =>
    simp only [doBinop, applyBinop, hdiv, hrem, binopValue, toInt_eq_zero, toInt_eq_min,
      toInt_eq_neg_one, true_and]
    by_cases h0 : b = 0
    · simp only [h0, if_true]
    · by_cases h1 : a = BitVec.intMin 64 ∧ b = -1
      · simp [h1]
      · have := BitVec.toInt_sdiv_of_ne_or_ne a b (by tauto)
        simp only [h0, h1, if_false, ofInt_eq this, ofInt_eq (BitVec.toInt_srem a b)]
  case lshift | rshift =>
    simp only [doBinop, applyBinop, divides, binopValue, hshift]
    by_cases h : 0 ≤ b.toInt ∧ b.toInt < 64
    · simp [h, ofInt_shiftLeft, ofInt_sshiftRight, toNat_toInt h.1]
    · simp [h]
  case ne =>
    have hne := ofInt_ofBool (a.toInt ≠ b.toInt)
    simp only [doBinop, applyBinop, divides, binopValue, hne]
    simp [bne, BitVec.toInt_inj, Bool.beq_eq_decide_eq]
  all_goals
    simp [doBinop, applyBinop, divides, binopValue, ofInt_ofBool, BitVec.ofInt_mul,
      BitVec.ofInt_add, ofInt_sub, BitVec.slt, BitVec.sle, BitVec.toInt_inj,
      -BitVec.toInt_and, -BitVec.toInt_or, -BitVec.toInt_xor, Bool.beq_eq_decide_eq]

/-! ### Outcomes -/

section
variable (ops : VarOps σ) (addr : Text → IntMax)

/-- The value `noeval` leaves for an expression. -/
def skim : Expr → IntMax
  | .num n => (saturate false n).1
  | .var x => addr x
  | .plus e => skim e
  | .neg e => -skim e
  | .not e => ofBool (skim e == 0)
  | .bnot e => ~~~skim e
  | .bin _ _ b => skim b
  | .and a b => ofBool (skim a != 0 && skim b != 0)
  | .or a b => ofBool (skim a != 0 || skim b != 0)
  | .cond a b c => if skim a != 0 then skim b else skim c
  | .assign _ _ e => skim e

/-- What a routine computes for an expression. -/
def outcome (noeval : Bool) (s : Text) (e : Expr) (vars : σ) : Except Stop (IntMax × σ) :=
  if noeval then .ok (skim addr e, vars) else eval ops s e vars

end

/-- The result `r` of a routine is the outcome `m`, with the input at `ls`, if
there was fuel enough. -/
def Agrees (s : Text) (ls : List Lexeme) (m : Except Stop (IntMax × σ))
    (r : Except Stop (IntMax × State σ)) : Prop :=
  r = .error .fuel ∨
    match m with
    | .ok (v, vars) => ∃ st, r = .ok (v, st) ∧ At st ls ∧ st.startbuf = s ∧ st.vars = vars
    | .error stop => r = .error stop

theorem Agrees.fuel {s : Text} {ls : List Lexeme} {m : Except Stop (IntMax × σ)} :
    Agrees s ls m (.error .fuel) := .inl rfl

theorem Agrees.ok {s : Text} {ls : List Lexeme} {st : State σ} (v : IntMax) (hat : At st ls)
    (hs : st.startbuf = s) : Agrees s ls (.ok (v, st.vars)) (.ok (v, st)) :=
  .inr ⟨st, rfl, hat, hs, rfl⟩

/-- Sequencing: the rest has to agree wherever the first routine stops. -/
theorem Agrees.bind {s : Text} {ls ls' : List Lexeme} {m : Except Stop (IntMax × σ)}
    {r : Except Stop (IntMax × State σ)} {k : IntMax × σ → Except Stop (IntMax × σ)}
    {f : IntMax × State σ → Except Stop (IntMax × State σ)} (h : Agrees s ls m r)
    (hk : ∀ v st, m = .ok (v, st.vars) → At st ls → st.startbuf = s →
      Agrees s ls' (k (v, st.vars)) (f (v, st))) : Agrees s ls' (m >>= k) (r >>= f) := by
  rcases h with rfl | h
  · exact .fuel
  · cases m with
    | error stop =>
      obtain rfl := h
      exact .inr rfl
    | ok p =>
      obtain ⟨v, vars⟩ := p
      obtain ⟨st, rfl, hat, hs, rfl⟩ := h
      exact hk v st rfl hat hs

/-- Work on the value alone. -/
theorem Agrees.map {s : Text} {ls : List Lexeme} {m : Except Stop (IntMax × σ)}
    {r : Except Stop (IntMax × State σ)} (h : Agrees s ls m r) (g : IntMax → IntMax) :
    Agrees s ls (m >>= fun p => .ok (g p.1, p.2)) (r >>= fun p => .ok (g p.1, p.2)) :=
  h.bind fun v _ _ hat hs => .ok (g v) hat hs

/-! ### Completeness -/

/-- The tokens at which the routine for a category stops. -/
def Ends : Category → Token → Prop
  | .unary, _ => True
  | .binary k, t => ∀ op, t = .binop op → k ≤ level op + 1
  | .conj, t => (∀ op, t ≠ .binop op) ∧ t ≠ .and
  | .disj, t => (∀ op, t ≠ .binop op) ∧ t ≠ .and ∧ t ≠ .or
  | .cond, t => (∀ op, t ≠ .binop op) ∧ t ≠ .and ∧ t ≠ .or ∧ t ≠ .qmark
  | .assign, t =>
    (∀ op, t ≠ .binop op) ∧ t ≠ .and ∧ t ≠ .or ∧ t ≠ .qmark ∧ t.assignOp = none

theorem Derives.ne_nil {cat : Category} {ts : List Lexeme} {e : Expr} (h : Derives cat ts e) :
    ts ≠ [] := by
  induction h with
  | operand _ ih | tighter _ ih | single _ ih | ofConj _ ih | ofDisj _ ih | ofCond _ ih => exact ih
  | _ => simp

theorem tailLexemes_eq_tail {ls : List Lexeme} (h : headToken ls ≠ .bad) :
    tailLexemes ls = ls.tail := by
  cases ls with
  | nil => rfl
  | cons l ls =>
    refine tailLexemes_cons ?_ ls
    rintro rfl
    exact h rfl

theorem headToken_append {ts : List Lexeme} (hne : ts ≠ []) (ls : List Lexeme) :
    headToken (ts ++ ls) = headToken ts := by
  cases ts with
  | nil => exact absurd rfl hne
  | cons => rfl

/-- A name is followed by an assignment operator only in an assignment. -/
theorem Derives.second {cat : Category} {ts : List Lexeme} {e : Expr} (h : Derives cat ts e)
    (hcat : cat ≠ .assign) {ls : List Lexeme} (hvar : headToken ts = .var)
    (hls : (headToken ls).assignOp = none) : (headToken (ts ++ ls).tail).assignOp = none := by
  induction h generalizing ls with
  | num | paren | plus | neg | not | bnot => simp [headToken, Lexeme.token] at hvar
  | var => simpa using hls
  | operand _ ih | tighter _ ih | single _ ih | ofConj _ ih | ofDisj _ ih => exact ih (by simp) hvar hls
  | bin ha _ ih | conj ha _ ih | disj ha _ ih | cond ha _ _ ih =>
    rw [headToken_append ha.ne_nil] at hvar
    rw [List.append_assoc]
    exact ih (by simp) hvar rfl
  | ofCond | assign => exact absurd rfl hcat

section
variable (ops : VarOps σ) (addr : Text → IntMax)

/-- What the routine for a category does at a phrase that derives from it. A chain
of operators of level below `k` is met as the first part of a longer chain. -/
def Complete : Category → List Lexeme → Expr → Prop
  | .unary, ts, e => ∀ fuel noeval {token val op} {st : State σ} {ls},
      Entry₂ token val op st (ts ++ ls) →
      Agrees st.startbuf ls (outcome ops addr noeval st.startbuf e st.vars)
        (primary ops addr fuel token val op noeval st)
  | .binary k, ts, e => ∀ fuel noeval {token val op} {st : State σ} {ls prec},
      Entry₂ token val op st (ts ++ ls) → k ≤ prec → Ends (.binary k) (headToken ls) →
      ∃ r fuel', Agrees st.startbuf ls (outcome ops addr noeval st.startbuf e st.vars) r ∧
        primary ops addr fuel token val op noeval st >>= climb ops addr fuel prec noeval =
          r >>= climb ops addr fuel' prec noeval
  | .conj, ts, e => ∀ fuel noeval {token val op} {st : State σ} {ls},
      Entry₂ token val op st (ts ++ ls) → Ends .conj (headToken ls) →
      Agrees st.startbuf ls (outcome ops addr noeval st.startbuf e st.vars)
        (and ops addr fuel token val op noeval st)
  | .disj, ts, e => ∀ fuel noeval {token val op} {st : State σ} {ls},
      Entry₂ token val op st (ts ++ ls) → Ends .disj (headToken ls) →
      Agrees st.startbuf ls (outcome ops addr noeval st.startbuf e st.vars)
        (or ops addr fuel token val op noeval st)
  | .cond, ts, e => ∀ fuel noeval {token val op} {st : State σ} {ls},
      Entry₂ token val op st (ts ++ ls) → Ends .cond (headToken ls) →
      Agrees st.startbuf ls (outcome ops addr noeval st.startbuf e st.vars)
        (cond ops addr fuel token val op noeval st)
  | .assign, ts, e => ∀ fuel noeval {token} {st : State σ} {ls},
      Entry₁ token st (ts ++ ls) → Ends .assign (headToken ls) →
      Agrees st.startbuf ls (outcome ops addr noeval st.startbuf e st.vars)
        (assignment ops addr fuel token noeval st)

variable {ops addr}

theorem Agrees.of_startbuf {s s' : Text} {ls : List Lexeme} {noeval : Bool} {e : Expr} {vars : σ}
    {r : Except Stop (IntMax × State σ)} (h : Agrees s ls (outcome ops addr noeval s e vars) r)
    (hs : s = s') : Agrees s' ls (outcome ops addr noeval s' e vars) r := hs ▸ h

theorem Complete.num (n : ℕ) : Complete ops addr .unary [.num n] (.num n) := by
  intro fuel noeval token val op st ls hent
  cases fuel with
  | zero => exact .inl (by rw [primary])
  | succ fuel =>
    have htok : token = .num := hent.token
    have hval : val = .val (saturate false n).1 := hent.val
    have hat : At { st with lastToken := op } ls := ⟨hent.next.token, hent.next.buf⟩
    have hout : outcome ops addr noeval st.startbuf (.num n) st.vars =
        .ok ((saturate false n).1, st.vars) := by
      cases noeval <;> rfl
    rw [htok, hval, primary, hout]
    exact .ok _ hat rfl

theorem Complete.var (x : Text) : Complete ops addr .unary [.var x] (.var x) := by
  intro fuel noeval token val op st ls hent
  cases fuel with
  | zero => exact .inl (by rw [primary])
  | succ fuel =>
    have htok : token = .var := hent.token
    have hval : val = .name x := hent.val
    have hat : At { st with lastToken := op } ls := ⟨hent.next.token, hent.next.buf⟩
    rw [htok, hval, primary]
    cases noeval with
    | true => exact .ok (addr x) hat rfl
    | false =>
      simp only [outcome, eval, YYSType.toName, Bool.false_eq_true, if_false]
      cases liftError (ops.lookupvarint x st.vars) with
      | error stop => exact .inr rfl
      | ok v => exact .ok v hat rfl

/-! ### The outcome of a compound expression -/

section
variable (noeval : Bool) (s : Text) (a b c e : Expr) (vars : σ)

@[simp] theorem outcome_true : outcome ops addr true s e vars = .ok (skim addr e, vars) := rfl

@[simp] theorem outcome_false : outcome ops addr false s e vars = eval ops s e vars := rfl

theorem outcome_plus : outcome ops addr noeval s (.plus e) vars =
    outcome ops addr noeval s e vars := by
  cases noeval <;> rfl

theorem outcome_neg : outcome ops addr noeval s (.neg e) vars =
    outcome ops addr noeval s e vars >>= fun p => .ok (-p.1, p.2) := by
  cases noeval <;> rfl

theorem outcome_not : outcome ops addr noeval s (.not e) vars =
    outcome ops addr noeval s e vars >>= fun p => .ok (ofBool (p.1 == 0), p.2) := by
  cases noeval <;> rfl

theorem outcome_bnot : outcome ops addr noeval s (.bnot e) vars =
    outcome ops addr noeval s e vars >>= fun p => .ok (~~~p.1, p.2) := by
  cases noeval <;> rfl

theorem outcome_bin (op : Binop) : outcome ops addr noeval s (.bin op a b) vars =
    outcome ops addr noeval s a vars >>= fun p => outcome ops addr noeval s b p.2 >>= fun q =>
      (if noeval then .ok q.1 else doBinop s op p.1 q.1) >>= fun v => .ok (v, q.2) := by
  cases noeval
  · simp only [outcome_false, eval, doBinop_eq]
    rfl
  · rfl

theorem outcome_and : outcome ops addr noeval s (.and a b) vars =
    outcome ops addr noeval s a vars >>= fun p =>
      outcome ops addr (noeval || p.1 == 0) s b p.2 >>= fun q =>
        .ok (ofBool (p.1 != 0 && q.1 != 0), q.2) := by
  cases noeval
  · simp only [outcome_false, eval, Bool.false_or]
    congr 1
    funext p
    obtain ⟨v, vars⟩ := p
    cases hv : v == 0 <;> simp only [bne, hv] <;> rfl
  · rfl

theorem outcome_or : outcome ops addr noeval s (.or a b) vars =
    outcome ops addr noeval s a vars >>= fun p =>
      outcome ops addr (noeval || p.1 != 0) s b p.2 >>= fun q =>
        .ok (ofBool (p.1 != 0 || q.1 != 0), q.2) := by
  cases noeval
  · simp only [outcome_false, eval, Bool.false_or]
    congr 1
    funext p
    obtain ⟨v, vars⟩ := p
    cases hv : v == 0 <;> simp only [bne, hv] <;> rfl
  · rfl

theorem outcome_cond : outcome ops addr noeval s (.cond a b c) vars =
    outcome ops addr noeval s a vars >>= fun p =>
      outcome ops addr (noeval || p.1 == 0) s b p.2 >>= fun q =>
        outcome ops addr (noeval || p.1 != 0) s c q.2 >>= fun r =>
          .ok (if p.1 != 0 then q.1 else r.1, r.2) := by
  cases noeval
  · simp only [outcome_false, eval, Bool.false_or]
    congr 1
    funext p
    obtain ⟨v, vars⟩ := p
    cases hv : v == 0
    · simp only [bne, hv, Bool.not_false, outcome_false, outcome_true, if_true]
      cases eval ops s b vars <;> rfl
    · simp only [bne, hv, Bool.not_true, outcome_false, outcome_true, Bool.false_eq_true, if_false]
      exact (bind_pure _).symm
  · rfl

theorem outcome_assign (x : Text) (op : Option Binop) :
    outcome ops addr noeval s (.assign x op e) vars =
      outcome ops addr noeval s e vars >>= fun p =>
        if noeval then .ok p
        else assignValue ops s op x p.1 p.2 >>= fun v => liftError (ops.setvarint x v p.2) := by
  cases noeval
  · simp only [outcome_false, eval, assignValue, doBinop_eq]
    cases op with
    | none => rfl
    | some op =>
      simp only [bind_assoc]
      rfl
  · rfl

end

/-! ### One routine after the other -/

@[simp] theorem State.yylex_startbuf (st : State σ) : st.yylex.2.startbuf = st.startbuf := rfl

@[simp] theorem State.yylex_vars (st : State σ) : st.yylex.2.vars = st.vars := rfl

/-- A prefix operator, then its operand. -/
theorem Complete.operand {ts ls : List Lexeme} {e : Expr} (ih : Complete ops addr .unary ts e)
    {t token op : Token} {val : YYSType} {fuel : ℕ} {noeval : Bool} {st : State σ}
    (ht : t ≠ .bad) (hent : Entry₂ token val op st (.sym t :: ts ++ ls)) :
    Agrees st.startbuf ls (outcome ops addr noeval st.startbuf e st.vars)
      (primary ops addr fuel op st.yylval st.yylex.1 noeval st.yylex.2) := by
  have hnext := hent.next
  rw [List.cons_append, tailLexemes_cons (by simpa using ht)] at hnext
  exact ih fuel noeval hnext.entry₂

theorem Complete.prefix_succ {t : Token} {ts : List Lexeme} {e e' : Expr}
    (ih : Complete ops addr .unary ts e) (g : IntMax → IntMax) (ht : t ≠ .bad)
    (hrun : ∀ fuel val op noeval (st : State σ), primary ops addr (fuel + 1) t val op noeval st =
      primary ops addr fuel op st.yylval st.yylex.1 noeval st.yylex.2 >>=
        fun p => .ok (g p.1, p.2))
    (hout : ∀ noeval s vars, outcome ops addr noeval s e' vars =
      outcome ops addr noeval s e vars >>= fun p => .ok (g p.1, p.2)) :
    Complete ops addr .unary (.sym t :: ts) e' := by
  intro fuel noeval token val op st ls hent
  cases fuel with
  | zero => exact .inl (by rw [primary])
  | succ fuel =>
    have htok : token = t := hent.token
    rw [htok, hrun, hout]
    exact (ih.operand ht hent).map g

theorem Complete.paren {ts : List Lexeme} {e : Expr} (ih : Complete ops addr .assign ts e) :
    Complete ops addr .unary (.sym .lparen :: (ts ++ [.sym .rparen])) e := by
  intro fuel noeval token val op st ls hent
  cases fuel with
  | zero => exact .inl (by rw [primary])
  | succ fuel =>
    have htok : token = .lparen := hent.token
    have hnext := hent.next
    rw [List.cons_append, tailLexemes_cons (by simp), List.append_assoc] at hnext
    rw [htok, primary, ← bind_pure (outcome ops addr noeval st.startbuf e st.vars)]
    refine (ih fuel noeval hnext (by simp [Ends, headToken, Lexeme.token, Token.assignOp])).bind ?_
    intro v st₁ _ hat hs
    have hr : st₁.lastToken = .rparen := hat.token
    have hnext := entry₁ (hat.buf.trans (tailLexemes_cons (by simp) _))
    simp only [hr, if_true]
    exact .ok v ⟨hnext.token, hnext.buf⟩ hs

/-- The operand on the right of `op` ends before an operator that does not bind tighter. -/
theorem Complete.right {op : Binop} {us : List Lexeme} {b : Expr}
    (ih : Complete ops addr (.binary (level op)) us b) (fuel : ℕ) (noeval : Bool) {token : Token}
    {val : YYSType} {op' : Token} {st : State σ} {ls : List Lexeme}
    (hent : Entry₂ token val op' st (us ++ ls))
    (hends : ∀ op2, headToken ls = .binop op2 → level op ≤ level op2) :
    Agrees st.startbuf ls (outcome ops addr noeval st.startbuf b st.vars)
      (primary ops addr fuel token val op' noeval st >>=
        climb ops addr fuel (arithPrec op) noeval) := by
  obtain ⟨r, fuel', hr, hclimb⟩ := ih fuel noeval hent le_rfl
    fun op2 h => (hends op2 h).trans (Nat.le_succ _)
  rw [arithPrec_eq_level, hclimb, ← bind_pure (outcome ops addr noeval st.startbuf b st.vars)]
  refine hr.bind fun v st' _ hat hs => ?_
  rw [climb_stop ops addr fun op2 h => hends op2 (hat.token.symm.trans h)]
  exact .ok v hat hs

theorem Complete.bin {op : Binop} {ts us : List Lexeme} {a b : Expr}
    (iha : Complete ops addr (.binary (level op + 1)) ts a)
    (ihb : Complete ops addr (.binary (level op)) us b) :
    Complete ops addr (.binary (level op + 1)) (ts ++ .sym (.binop op) :: us) (.bin op a b) := by
  intro fuel noeval token val op' st ls prec hent hprec hends
  rw [List.append_assoc, List.cons_append] at hent
  obtain ⟨r, fuel₁, hr, hclimb⟩ := iha fuel noeval hent hprec (by rintro op2 ⟨⟩; exact le_rfl)
  rw [hclimb, outcome_bin]
  rcases hr with rfl | hr
  · exact ⟨.error .fuel, 0, .fuel, rfl⟩
  revert hr
  cases outcome ops addr noeval st.startbuf a st.vars with
  | error stop =>
    rintro rfl
    exact ⟨.error stop, 0, .inr rfl, rfl⟩
  | ok p =>
    obtain ⟨va, vars⟩ := p
    rintro ⟨st₁, rfl, hat, hs, rfl⟩
    have hlt : ¬ prec ≤ arithPrec op := by
      rw [arithPrec_eq_level]
      omega
    have hrun : (Except.ok (va, st₁) >>= climb ops addr fuel₁ prec noeval) =
        binop2 ops addr fuel₁ va op prec noeval st₁ :=
      (climb_binop ops addr hat.token).trans (if_neg hlt)
    rw [hrun]
    cases fuel₁ with
    | zero =>
      rw [binop2]
      exact ⟨.error .fuel, 0, .fuel, rfl⟩
    | succ f =>
      rw [binop2_succ]
      dsimp only
      have hright := ihb.right f noeval
        (entry₁ (hat.buf.trans (tailLexemes_cons (by simp) _))).entry₂
        fun op2 h => Nat.le_of_succ_le_succ (hends op2 h)
      let apply (p : IntMax × State σ) : Except Stop (IntMax × State σ) :=
        (if noeval then .ok p.1 else doBinop p.2.startbuf op va p.1) >>= fun v => .ok (v, p.2)
      refine ⟨_ >>= apply, f, (hright.of_startbuf hs).bind ?_, ?_⟩
      · intro vb st₂ _ hat₂ hs₂
        simp only [apply, hs₂]
        cases (if noeval then .ok vb else doBinop st.startbuf op va vb) with
        | error stop => exact .inr rfl
        | ok v => exact .ok v hat₂ hs₂
      · simp only [apply, bind_assoc]
        rfl

theorem Complete.ofUnary {ts : List Lexeme} {e : Expr} (ih : Complete ops addr .unary ts e) :
    Complete ops addr (.binary 0) ts e := by
  intro fuel noeval token val op st ls prec hent _ _
  exact ⟨_, fuel, ih fuel noeval hent, rfl⟩

theorem Complete.tighter {k : ℕ} {ts : List Lexeme} {e : Expr}
    (ih : Complete ops addr (.binary k) ts e) : Complete ops addr (.binary (k + 1)) ts e := by
  intro fuel noeval token val op st ls prec hent hprec hends
  exact ih fuel noeval hent (Nat.le_of_succ_le hprec) fun op2 h => Nat.le_of_succ_le (hends op2 h)

/-- A chain of operators of every level. -/
theorem Complete.chain {ts : List Lexeme} {e : Expr} (ih : Complete ops addr (.binary 8) ts e)
    (fuel : ℕ) (noeval : Bool) {token : Token} {val : YYSType} {op : Token} {st : State σ}
    {ls : List Lexeme} (hent : Entry₂ token val op st (ts ++ ls))
    (hends : ∀ op, headToken ls ≠ .binop op) :
    Agrees st.startbuf ls (outcome ops addr noeval st.startbuf e st.vars)
      (binop ops addr fuel token val op noeval st) := by
  cases fuel with
  | zero => exact .inl (by rw [binop])
  | succ fuel =>
    obtain ⟨r, fuel', hr, hclimb⟩ := ih fuel noeval hent (le_refl arithMaxPrec)
      fun op2 h => absurd h (hends op2)
    rw [binop_succ, hclimb, ← bind_pure (outcome ops addr noeval st.startbuf e st.vars)]
    refine hr.bind fun v st' _ hat hs => ?_
    rw [climb_stop ops addr fun op2 h => absurd (hat.token.symm.trans h) (hends op2)]
    exact .ok v hat hs

theorem Complete.single {ts : List Lexeme} {e : Expr} (ih : Complete ops addr (.binary 8) ts e) :
    Complete ops addr .conj ts e := by
  intro fuel noeval token val op st ls hent hends
  cases fuel with
  | zero => exact .inl (by rw [and])
  | succ fuel =>
    rw [and, ← bind_pure (outcome ops addr noeval st.startbuf e st.vars)]
    refine (ih.chain fuel noeval hent hends.1).bind fun v st' _ hat hs => ?_
    simp only [hat.token, hends.2, if_false]
    exact .ok v hat hs

theorem Complete.conj {ts us : List Lexeme} {a b : Expr}
    (iha : Complete ops addr (.binary 8) ts a) (ihb : Complete ops addr .conj us b) :
    Complete ops addr .conj (ts ++ .sym .and :: us) (.and a b) := by
  intro fuel noeval token val op st ls hent hends
  rw [List.append_assoc, List.cons_append] at hent
  cases fuel with
  | zero => exact .inl (by rw [and])
  | succ fuel =>
    rw [and, outcome_and]
    refine (iha.chain fuel noeval hent (by simp [headToken, Lexeme.token])).bind
      fun v st₁ _ hat hs => ?_
    have htok : st₁.lastToken = .and := hat.token
    simp only [htok, if_true]
    have hb := ihb fuel (noeval || v == 0)
      (entry₁ (hat.buf.trans (tailLexemes_cons (by simp) _))).entry₂ hends
    exact (hb.of_startbuf hs).map fun w => ofBool (v != 0 && w != 0)

theorem Complete.ofConj {ts : List Lexeme} {e : Expr} (ih : Complete ops addr .conj ts e) :
    Complete ops addr .disj ts e := by
  intro fuel noeval token val op st ls hent hends
  cases fuel with
  | zero => exact .inl (by rw [or])
  | succ fuel =>
    rw [or, ← bind_pure (outcome ops addr noeval st.startbuf e st.vars)]
    refine (ih fuel noeval hent ⟨hends.1, hends.2.1⟩).bind fun v st' _ hat hs => ?_
    simp only [hat.token, hends.2.2, if_false]
    exact .ok v hat hs

theorem Complete.disj {ts us : List Lexeme} {a b : Expr}
    (iha : Complete ops addr .conj ts a) (ihb : Complete ops addr .disj us b) :
    Complete ops addr .disj (ts ++ .sym .or :: us) (.or a b) := by
  intro fuel noeval token val op st ls hent hends
  rw [List.append_assoc, List.cons_append] at hent
  cases fuel with
  | zero => exact .inl (by rw [or])
  | succ fuel =>
    rw [or, outcome_or]
    refine (iha fuel noeval hent (by simp [Ends, headToken, Lexeme.token])).bind
      fun v st₁ _ hat hs => ?_
    have htok : st₁.lastToken = .or := hat.token
    simp only [htok, if_true]
    have hb := ihb fuel (noeval || v != 0)
      (entry₁ (hat.buf.trans (tailLexemes_cons (by simp) _))).entry₂ hends
    exact (hb.of_startbuf hs).map fun w => ofBool (v != 0 || w != 0)

theorem Complete.ofDisj {ts : List Lexeme} {e : Expr} (ih : Complete ops addr .disj ts e) :
    Complete ops addr .cond ts e := by
  intro fuel noeval token val op st ls hent hends
  cases fuel with
  | zero => exact .inl (by rw [cond])
  | succ fuel =>
    rw [cond, ← bind_pure (outcome ops addr noeval st.startbuf e st.vars)]
    refine (ih fuel noeval hent ⟨hends.1, hends.2.1, hends.2.2.1⟩).bind fun v st' _ hat hs => ?_
    simp only [hat.token, hends.2.2.2, if_false]
    exact .ok v hat hs

theorem Complete.cond {ts us vs : List Lexeme} {a b c : Expr}
    (iha : Complete ops addr .disj ts a) (ihb : Complete ops addr .assign us b)
    (ihc : Complete ops addr .cond vs c) :
    Complete ops addr .cond (ts ++ .sym .qmark :: (us ++ .sym .colon :: vs)) (.cond a b c) := by
  intro fuel noeval token val op st ls hent hends
  simp only [List.append_assoc, List.cons_append] at hent
  cases fuel with
  | zero => exact .inl (by rw [Arith.cond])
  | succ fuel =>
    rw [Arith.cond, outcome_cond]
    refine (iha fuel noeval hent (by simp [Ends, headToken, Lexeme.token])).bind
      fun v st₁ _ hat hs => ?_
    have htok : st₁.lastToken = .qmark := hat.token
    simp only [htok, if_true]
    have hb := ihb fuel (noeval || v == 0)
      (entry₁ (hat.buf.trans (tailLexemes_cons (by simp) _)))
      (by simp [Ends, headToken, Lexeme.token, Token.assignOp])
    refine (hb.of_startbuf hs).bind fun w st₂ _ hat hs => ?_
    have htok : st₂.lastToken = .colon := hat.token
    simp only [htok, if_true]
    have hc := ihc fuel (noeval || v != 0)
      (entry₁ (hat.buf.trans (tailLexemes_cons (by simp) _))).entry₂ hends
    exact (hc.of_startbuf hs).map fun u => if v != 0 then w else u

/-- A phrase that is not an assignment, though it may begin with a name. -/
theorem agrees_cond {ts ls : List Lexeme} {e : Expr} (ih : Complete ops addr .cond ts e)
    (hne : ts ≠ []) (hends : Ends .cond (headToken ls))
    (hsecond : headToken ts = .var → (headToken (ts ++ ls).tail).assignOp = none) (fuel : ℕ)
    (noeval : Bool) {token : Token} {st : State σ} (hent : Entry₁ token st (ts ++ ls)) :
    Agrees st.startbuf ls (outcome ops addr noeval st.startbuf e st.vars)
      (assignment ops addr fuel token noeval st) := by
  cases fuel with
  | zero => exact .inl (by rw [assignment])
  | succ fuel =>
    have hno : (if token = .var then st.yylex.1.assignOp else none) = none := by
      split_ifs with htok
      · have hvar := hent.token.symm.trans htok
        rw [(entry₁ hent.buf).token, tailLexemes_eq_tail (by simp [hvar])]
        rw [headToken_append hne] at hvar
        exact hsecond hvar
      · rfl
    rw [assignment]
    simp only [hno]
    exact ih fuel noeval hent.entry₂ hends

theorem Complete.ofCond {ts : List Lexeme} {e : Expr} (hd : Derives .cond ts e)
    (ih : Complete ops addr .cond ts e) : Complete ops addr .assign ts e := by
  intro fuel noeval token st ls hent hends
  exact agrees_cond ih hd.ne_nil ⟨hends.1, hends.2.1, hends.2.2.1, hends.2.2.2.1⟩
    (fun hvar => hd.second (by simp) hvar hends.2.2.2.2) fuel noeval hent

theorem Agrees.assigned {ls : List Lexeme} {st : State σ} (hat : At st ls)
    (r : Except Text (IntMax × σ)) :
    Agrees st.startbuf ls (liftError r)
      (liftError r >>= fun p => .ok (p.1, { st with vars := p.2 })) := by
  cases r with
  | error msg => exact .inr rfl
  | ok p => exact .inr ⟨_, rfl, ⟨hat.token, hat.buf⟩, rfl, rfl⟩

theorem agrees_assign {x : Text} {t : Token} {assign : Option Binop} {ts ls : List Lexeme}
    {e : Expr} (ht : t.assignOp = some assign)
    (ih : ∀ fuel noeval {token} {st : State σ}, Entry₁ token st (ts ++ ls) →
      Agrees st.startbuf ls (outcome ops addr noeval st.startbuf e st.vars)
        (assignment ops addr fuel token noeval st)) (fuel : ℕ) (noeval : Bool)
    {token : Token} {st : State σ} (hent : Entry₁ token st (.var x :: .sym t :: ts ++ ls)) :
    Agrees st.startbuf ls (outcome ops addr noeval st.startbuf (.assign x assign e) st.vars)
      (assignment ops addr fuel token noeval st) := by
  cases fuel with
  | zero => exact .inl (by rw [assignment])
  | succ fuel =>
    have htok : token = .var := hent.token
    have hval : st.yylval = .name x := hent.val
    have hnext := entry₁ (hent.buf.trans (tailLexemes_cons (by simp) _))
    have htok₂ : st.yylex.1 = t := hnext.token
    rw [assignment, outcome_assign]
    simp only [htok, if_true, htok₂, ht, hval, YYSType.toName]
    have he := ih fuel noeval (entry₁ (hnext.buf.trans
      (tailLexemes_cons (by simpa using (Token.assignOp_ne ht).2.2.2) _)))
    refine (he.of_startbuf rfl).bind fun v st₁ _ hat hs => ?_
    cases noeval with
    | true => exact .ok v hat hs
    | false =>
      simp only [Bool.false_eq_true, if_false, State.yylex_startbuf] at hs ⊢
      rw [← hs]
      cases assignValue ops st₁.startbuf assign x v st₁.vars with
      | error stop => exact .inr rfl
      | ok w => exact .assigned hat _

theorem Complete.assign {x : Text} {t : Token} {assign : Option Binop} {ts : List Lexeme} {e : Expr}
    (ht : t.assignOp = some assign) (ih : Complete ops addr .assign ts e) :
    Complete ops addr .assign (.var x :: .sym t :: ts) (.assign x assign e) := by
  intro fuel noeval token st ls hent hends
  exact agrees_assign ht (fun fuel noeval _ _ hent => ih fuel noeval hent hends) fuel noeval hent

variable (ops addr) in
/-- The routines compute the value of every phrase they meet. -/
theorem complete {cat : Category} {ts : List Lexeme} {e : Expr} (h : Derives cat ts e) :
    Complete ops addr cat ts e := by
  induction h with
  | num n => exact .num n
  | var x => exact .var x
  | paren _ ih => exact .paren ih
  | plus _ ih =>
    exact ih.prefix_succ id (by simp) (fun _ _ _ _ _ => (bind_pure _).symm)
      fun _ _ _ => (outcome_plus ..).trans (bind_pure _).symm
  | neg _ ih =>
    exact ih.prefix_succ (-·) (by simp) (fun _ _ _ _ _ => rfl) fun _ _ _ => outcome_neg ..
  | not _ ih =>
    exact ih.prefix_succ (fun v => ofBool (v == 0)) (by simp) (fun _ _ _ _ _ => rfl)
      fun _ _ _ => outcome_not ..
  | bnot _ ih =>
    exact ih.prefix_succ (~~~·) (by simp) (fun _ _ _ _ _ => rfl) fun _ _ _ => outcome_bnot ..
  | operand _ ih => exact .ofUnary ih
  | tighter _ ih => exact .tighter ih
  | bin _ _ iha ihb => exact .bin iha ihb
  | single _ ih => exact .single ih
  | conj _ _ iha ihb => exact .conj iha ihb
  | ofConj _ ih => exact .ofConj ih
  | disj _ _ iha ihb => exact .disj iha ihb
  | ofDisj _ ih => exact .ofDisj ih
  | cond _ _ _ iha ihb ihc => exact .cond iha ihb ihc
  | ofCond hd ih => exact .ofCond hd ih
  | assign ht _ ih => exact .assign ht ih

end

end Bootsh.Arith
