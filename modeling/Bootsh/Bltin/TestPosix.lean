import Bootsh.Bltin.Test

/-!
The rules of POSIX for `test` by the number of its arguments.
-/
namespace Bootsh.Test

/-! ### The rules -/

def one (s : Text) : Bool := decide (s ≠ [])

def negate (r : Except Stop Bool) : Except Stop Bool := r.map (!·)

/-- `!` or a unary primary; `none` where the result is left open. -/
def two (w : World) (a b : Text) : Option (Except Stop Bool) :=
  if a = ['!'] then some (.ok (!one b))
  else match getop a with
    | some ⟨_, n, .unop⟩ => some (unary w n b)
    | _ => none

/-- A binary primary, with `-a` and `-o`; `!` before two arguments, or parentheses. -/
def three (w : World) (a b c : Text) : Option (Except Stop Bool) :=
  match getop b with
  | some ⟨_, n, .binop⟩ => some (binary w a n c)
  | some ⟨_, .band, _⟩ => some (.ok (one a && one c))
  | some ⟨_, .bor, _⟩ => some (.ok (one a || one c))
  | _ =>
    if a = ['!'] then (two w b c).map negate
    else if a = ['('] ∧ c = [')'] then some (.ok (one b))
    else none

def four (w : World) (a b c d : Text) : Option (Except Stop Bool) :=
  if a = ['!'] then (three w b c d).map negate
  else if a = ['('] ∧ d = [')'] then two w b c
  else none

/-- What POSIX prescribes for up to four arguments. -/
def prescribed (w : World) : List Text → Option (Except Stop Bool)
  | [] => some (.ok false)
  | [a] => some (.ok (one a))
  | [a, b] => two w a b
  | [a, b, c] => three w a b c
  | [a, b, c, d] => four w a b c d
  | _ => none

/-! ### Operators -/

variable {w : World} {argv tail : Argv} {i fuel : ℕ} {a b c d s : Text} {op : TOp} {res : Bool}

theorem getop_some (h : getop s = some op) : op ∈ ops ∧ op.opText.toList = s := by
  unfold getop at h
  have htext := List.find?_some h
  exact ⟨List.mem_of_find?_eq_some h, by simpa using htext⟩

/-- What the table has for each operator. -/
structure OpFacts (s : Text) (op : TOp) : Prop where
  eoi : op.opNum ≠ .eoi
  unot : op.opNum = .unot ↔ s = ['!']
  lparen : op.opNum = .lparen ↔ s = ['(']
  rparen : op.opNum = .rparen ↔ s = [')']
  band : op.opNum = .band ↔ s = ['-', 'a']
  bor : op.opNum = .bor ↔ s = ['-', 'o']
  bunop : op.opType = .bunop ↔ s = ['!']
  bbinop : op.opType = .bbinop ↔ s = ['-', 'a'] ∨ s = ['-', 'o']
  paren : op.opType = .paren ↔ s = ['('] ∨ s = [')']
  nonempty : s ≠ []

instance (s : Text) (op : TOp) : Decidable (OpFacts s op) :=
  decidable_of_iff (op.opNum ≠ .eoi ∧ (op.opNum = .unot ↔ s = ['!']) ∧
      (op.opNum = .lparen ↔ s = ['(']) ∧ (op.opNum = .rparen ↔ s = [')']) ∧
      (op.opNum = .band ↔ s = ['-', 'a']) ∧ (op.opNum = .bor ↔ s = ['-', 'o']) ∧
      (op.opType = .bunop ↔ s = ['!']) ∧
      (op.opType = .bbinop ↔ s = ['-', 'a'] ∨ s = ['-', 'o']) ∧
      (op.opType = .paren ↔ s = ['('] ∨ s = [')']) ∧ s ≠ [])
    ⟨fun ⟨h₁, h₂, h₃, h₄, h₅, h₆, h₇, h₈, h₉, h⟩ => ⟨h₁, h₂, h₃, h₄, h₅, h₆, h₇, h₈, h₉, h⟩,
      fun ⟨h₁, h₂, h₃, h₄, h₅, h₆, h₇, h₈, h₉, h⟩ => ⟨h₁, h₂, h₃, h₄, h₅, h₆, h₇, h₈, h₉, h⟩⟩

theorem getop_facts (h : getop s = some op) : OpFacts s op := by
  have key : ∀ op ∈ ops, OpFacts op.opText.toList op := by decide
  obtain ⟨hmem, rfl⟩ := getop_some h
  exact key op hmem

/-! ### The last word -/

theorem word_zero (h : argv.drop i = some s :: tail) : argv.word i = .ok (some s) := by
  rw [Argv.word, ← Nat.add_zero i, ← List.getElem?_drop, h]
  rfl

/-- The words from `i` on. -/
theorem word_drop {ws : Argv} (h : argv.drop i = ws) (k : ℕ) :
    argv.word (i + k) = Argv.word ws k := by
  rw [Argv.word, Argv.word, ← List.getElem?_drop, h]

/-- The token of the last word: no unary operator and no parenthesis that opens. -/
def lastToken (s : Text) : Token × Option TOp :=
  match getop s with
  | none => (.operand, none)
  | some op => if op.opType = .unop ∨ op.opNum = .lparen then (.operand, none) else (op.opNum, some op)

theorem ok_bind {ε α β : Type} (x : α) (f : α → Except ε β) : (Except.ok x >>= f) = f x := rfl

theorem pure_eq_ok {ε α : Type} (x : α) : (pure x : Except ε α) = .ok x := rfl

theorem tLex_last (h : argv.drop i = some s :: none :: tail) : tLex argv i = .ok (lastToken s) := by
  have hword : argv.word i = .ok (some s) := word_drop h 0
  have hnext : argv.word (i + 1) = .ok none := word_drop h 1
  rw [tLex, hword, ok_bind, lastToken]
  cases hop : getop s with
  | none =>
    simp only [hop]
    rfl
  | some op =>
    by_cases hun : op.opType = .unop
    · simp [hop, hun, isoperand, hnext, ok_bind, pure_eq_ok]
    · by_cases hpar : op.opNum = .lparen
      · simp [hop, hun, hpar, hnext, ok_bind, pure_eq_ok]
      · simp [hop, hun, hpar, ok_bind, pure_eq_ok]

theorem tLex_end (h : argv.drop i = none :: tail) : tLex argv i = .ok (.eoi, none) := by
  have hword : argv.word i = .ok none := word_drop h 0
  rw [tLex, hword, ok_bind]
  rfl

/-- What `lastToken` has. -/
structure LastFacts (s : Text) (n : Token) (op : Option TOp) : Prop where
  eoi : n ≠ .eoi
  lparen : n ≠ .lparen
  unop : ∀ o, op = some o → o.opType ≠ .unop
  unot : n = .unot ↔ s = ['!']
  band : n = .band ↔ s = ['-', 'a']
  bor : n = .bor ↔ s = ['-', 'o']
  rparen : n = .rparen ↔ s = [')']

theorem lastToken_facts (s : Text) : LastFacts s (lastToken s).1 (lastToken s).2 := by
  have hoperand (h : ∀ t ∈ [['!'], ['-', 'a'], ['-', 'o'], [')']], s ≠ t) :
      LastFacts s .operand none := by
    simp only [List.mem_cons, List.not_mem_nil, or_false, forall_eq_or_imp, forall_eq] at h
    obtain ⟨h₁, h₂, h₃, h₄⟩ := h
    exact ⟨by decide, by decide, by simp, by simp [h₁], by simp [h₂], by simp [h₃], by simp [h₄]⟩
  unfold lastToken
  cases hop : getop s with
  | none =>
    apply hoperand
    rintro t ht rfl
    simp only [List.mem_cons, List.not_mem_nil, or_false] at ht
    rcases ht with rfl | rfl | rfl | rfl <;> cases hop
  | some op =>
    have h := getop_facts hop
    dsimp only
    split
    case isTrue hlast =>
      apply hoperand
      rintro t ht rfl
      simp only [List.mem_cons, List.not_mem_nil, or_false] at ht
      rcases ht with rfl | rfl | rfl | rfl <;> cases hop <;> simp at hlast
    case isFalse hlast =>
      rw [not_or] at hlast
      exact ⟨h.eoi, hlast.2, fun o ho => Option.some.inj ho ▸ hlast.1, h.unot, h.band, h.bor, h.rparen⟩

/-- What is looked at after the last word. -/
theorem tLex_after (h : argv.drop i = some s :: none :: tail) :
    tLex argv (i + 1) = .ok (.eoi, none) := by
  have hdrop : argv.drop (i + 1) = none :: tail := by rw [← List.drop_drop, h]; rfl
  exact tLex_end hdrop

/-- The last word is not empty, or it is. -/
theorem primary_last {n : Token} {o : Option TOp} (h : argv.drop i = some s :: none :: tail)
    (hn : n ≠ .eoi) (hlparen : n ≠ .lparen) (hunop : ∀ op, o = some op → op.opType ≠ .unop) :
    primary w argv (fuel + 1) n ⟨i, o⟩ = .ok (one s, ⟨i, none⟩) := by
  have hword : argv.word i = .ok (some s) := word_drop h 0
  have hend := tLex_after h
  have hone : decide (s.length > 0) = one s := by
    cases s <;> simp [one]
  rw [primary, if_neg hn, if_neg hlparen]
  dsimp only
  split
  case h_1 => exact absurd rfl (hunop _ rfl)
  case h_2 =>
    rw [hend, ok_bind]
    simp [hword, ok_bind, pure_eq_ok, hone]

theorem nexpr_last (h : argv.drop i = some s :: none :: tail) :
    nexpr w argv (fuel + 3) (lastToken s).1 ⟨i, (lastToken s).2⟩ = .ok (one s, ⟨i, none⟩) := by
  have hlast := lastToken_facts s
  rw [nexpr]
  by_cases hunot : (lastToken s).1 = .unot
  · have hs := hlast.unot.mp hunot
    rw [if_neg (not_not.mpr hunot), tLex_after h, ok_bind]
    simp [nexpr, primary, ok_bind, pure_eq_ok, one, hs]
  · rw [if_pos hunot]
    exact primary_last h hlast.eoi hlast.lparen hlast.unop

/-! ### Expressions -/

variable {n n' : Token} {o o' : Option TOp} {st : State} {j : ℕ} {r : Bool}

theorem aexpr_single (hr : nexpr w argv fuel n st = .ok (r, ⟨j, o⟩))
    (hn : tLex argv (j + 1) = .ok (n', o')) (hband : n' ≠ .band) :
    aexpr w argv (fuel + 1) res n st = .ok (res && r, ⟨j, o'⟩) := by
  rw [aexpr, hr, ok_bind]
  dsimp only
  rw [hn, ok_bind]
  dsimp only
  rw [if_pos hband]
  rfl

theorem oexpr_done (hr : aexpr w argv fuel true n st = .ok (r, ⟨j, o⟩))
    (hn : tLex argv (j + 1) = .ok (n', o')) (hbor : n' ≠ .bor) :
    oexpr w argv (fuel + 1) res n st = .ok (res || r, ⟨j, o'⟩) := by
  rw [oexpr, hr, ok_bind]
  dsimp only
  rw [hn, ok_bind]
  dsimp only
  rw [if_pos hbor]
  rfl

theorem oexpr_single (hr : nexpr w argv fuel n st = .ok (r, ⟨j, o⟩))
    (hn : tLex argv (j + 1) = .ok (n', o')) (hband : n' ≠ .band) (hbor : n' ≠ .bor) :
    oexpr w argv (fuel + 2) res n st = .ok (res || r, ⟨j, o'⟩) :=
  oexpr_done (aexpr_single hr hn hband) hn hbor

theorem oexpr_error {e : Stop} (hr : nexpr w argv fuel n st = .error e) :
    oexpr w argv (fuel + 2) res n st = .error e := by
  rw [oexpr, aexpr, hr]
  rfl

theorem testFuel_eq (argv : Argv) (h : argv.drop i = some s :: tail) :
    ∃ k, testFuel argv = k + 12 := by
  have hlen : argv.length ≠ 0 := by
    intro hlen
    rw [List.length_eq_zero_iff.mp hlen, List.drop_nil] at h
    cases h
  exact ⟨4 * argv.length - 4, by rw [testFuel]; omega⟩

theorem evalExpr_value (ho : oexpr w argv (testFuel argv) false n ⟨i, o⟩ = .ok (r, ⟨j, o'⟩))
    (h : argv.drop j = some s :: none :: tail) : evalExpr w argv i res n o = .ok (res ^^ r) := by
  have hword : argv.word j = .ok (some s) := word_drop h 0
  have hnext : argv.word (j + 1) = .ok none := word_drop h 1
  simp [evalExpr, ho, ok_bind, hword, hnext, pure_eq_ok]

theorem evalExpr_end (ho : oexpr w argv (testFuel argv) false n ⟨i, o⟩ = .ok (r, ⟨j, o'⟩))
    (h : argv.drop j = none :: tail) : evalExpr w argv i res n o = .ok (res ^^ r) := by
  have hword : argv.word j = .ok none := word_drop h 0
  simp [evalExpr, ho, ok_bind, hword, pure_eq_ok]

theorem evalExpr_left {t : Text} (ho : oexpr w argv (testFuel argv) false n ⟨i, o⟩ = .ok (r, ⟨j, o'⟩))
    (h : argv.drop j = some s :: some t :: tail) :
    evalExpr w argv i res n o = .error (syntaxError (some s) "unexpected operator") := by
  have hword : argv.word j = .ok (some s) := word_drop h 0
  have hnext : argv.word (j + 1) = .ok (some t) := word_drop h 1
  simp [evalExpr, ho, ok_bind, hword, hnext]

theorem evalExpr_error {e : Stop} (ho : oexpr w argv (testFuel argv) false n ⟨i, o⟩ = .error e) :
    evalExpr w argv i res n o = .error e := by
  rw [evalExpr, ho]
  rfl

/-- One word. -/
theorem lexAndEval_one (h : argv.drop i = some s :: none :: tail) :
    lexAndEval w argv i res = .ok (res ^^ one s) := by
  obtain ⟨k, hk⟩ := testFuel_eq argv h
  rw [lexAndEval, tLex_last h, ok_bind]
  change evalExpr w argv i res (lastToken s).1 (lastToken s).2 = _
  refine @evalExpr_value w argv tail i s res _ _ none i _ ?_ h
  rw [hk]
  exact oexpr_single (nexpr_last h) (tLex_after h) (by decide) (by decide)

theorem drop_succ {ws : Argv} {x : Option Text} (h : argv.drop i = x :: ws) :
    argv.drop (i + 1) = ws := by
  rw [← List.drop_drop, h]
  rfl

/-- `!` and one word. -/
theorem lexAndEval_bang (h : argv.drop i = some ['!'] :: some b :: none :: tail) :
    lexAndEval w argv i res = .ok (res ^^ !one b) := by
  obtain ⟨k, hk⟩ := testFuel_eq argv h
  have hb := drop_succ h
  have hlast := lastToken_facts b
  have hlex : tLex argv i = .ok (.unot, some ⟨"!", .unot, .bunop⟩) := by
    have hword : argv.word i = .ok (some ['!']) := word_drop h 0
    rw [tLex, hword, ok_bind]
    rfl
  have hnexpr : nexpr w argv (k + 10) .unot ⟨i, some ⟨"!", .unot, .bunop⟩⟩ =
      .ok (!one b, ⟨i + 1, none⟩) := by
    rw [nexpr, if_neg (by decide), tLex_last hb, ok_bind]
    dsimp only
    rw [if_pos hlast.eoi, nexpr_last hb]
    rfl
  rw [lexAndEval, hlex, ok_bind]
  refine @evalExpr_value w argv tail i b res _ _ none (i + 1) _ ?_ hb
  rw [hk]
  exact oexpr_single hnexpr (tLex_after hb) (by decide) (by decide)

section
variable {text : String}

theorem unop_ne (h : getop s = some ⟨text, n, .unop⟩) :
    n ≠ .eoi ∧ n ≠ .unot ∧ n ≠ .lparen := by
  have hfacts := getop_facts h
  refine ⟨hfacts.eoi, fun hn => ?_, fun hn => ?_⟩
  · cases hfacts.bunop.mpr (hfacts.unot.mp hn)
  · cases hfacts.paren.mpr (.inl (hfacts.lparen.mp hn))

theorem tLex_unop (h : argv.drop i = some s :: tail) (hop : getop s = some ⟨text, n, .unop⟩)
    (hoperand : isoperand argv i = .ok false) :
    tLex argv i = .ok (n, some ⟨text, n, .unop⟩) := by
  have hword : argv.word i = .ok (some s) := word_drop h 0
  simp [tLex, hword, ok_bind, hop, hoperand, pure_eq_ok]

theorem nexpr_unop (hop : getop a = some ⟨text, n, .unop⟩) (hword : argv.word (i + 1) = .ok (some b)) :
    nexpr w argv (fuel + 2) n ⟨i, some ⟨text, n, .unop⟩⟩ =
      (unary w n b).map fun r => (r, ⟨i + 1, some ⟨text, n, .unop⟩⟩) := by
  obtain ⟨heoi, hunot, hlparen⟩ := unop_ne hop
  rw [nexpr, if_pos hunot, primary, if_neg heoi, if_neg hlparen]
  dsimp only
  rw [hword, ok_bind]
  dsimp only
  cases unary w n b <;> rfl

/-- A unary primary and its operand. -/
theorem lexAndEval_unop (h : argv.drop i = some a :: some b :: none :: tail)
    (hop : getop a = some ⟨text, n, .unop⟩) :
    lexAndEval w argv i res = (unary w n b).map (res ^^ ·) := by
  obtain ⟨k, hk⟩ := testFuel_eq argv h
  have hb := drop_succ h
  have hone : argv.word (i + 1) = .ok (some b) := word_drop h 1
  have htwo : argv.word (i + 2) = .ok none := word_drop h 2
  have hoperand : isoperand argv i = .ok false := by
    simp [isoperand, hone, htwo, ok_bind, pure_eq_ok]
  have hnexpr := @nexpr_unop w argv i (k + 8) a b n text hop hone
  rw [lexAndEval, tLex_unop h hop hoperand, ok_bind]
  cases hr : unary w n b with
  | error e =>
    rw [hr] at hnexpr
    exact evalExpr_error (hk ▸ oexpr_error hnexpr)
  | ok r =>
    rw [hr] at hnexpr
    exact evalExpr_value (hk ▸ oexpr_single hnexpr (tLex_after hb) (by decide) (by decide)) hb

/-- A binary primary between its operands. -/
theorem evalExpr_binop (h : argv.drop i = some a :: some b :: some c :: none :: tail)
    (hop : getop b = some ⟨text, n, .binop⟩) :
    evalExpr w argv i res .operand none = (binary w a n c).map (res ^^ ·) := by
  obtain ⟨k, hk⟩ := testFuel_eq argv h
  have hb := drop_succ h
  have hc := drop_succ hb
  have hfacts := getop_facts hop
  have hlparen : n ≠ .lparen := fun hn => by cases hfacts.paren.mpr (.inl (hfacts.lparen.mp hn))
  have hzero : argv.word i = .ok (some a) := word_drop h 0
  have hone : argv.word (i + 1) = .ok (some b) := word_drop h 1
  have htwo : argv.word (i + 2) = .ok (some c) := word_drop h 2
  have hlex : tLex argv (i + 1) = .ok (n, some ⟨text, n, .binop⟩) := by
    simp [tLex, hone, ok_bind, hop, hlparen, pure_eq_ok]
  have hnexpr : nexpr w argv (k + 10) .operand ⟨i, none⟩ =
      (binary w a n c).map fun r => (r, ⟨i + 2, some ⟨text, n, .binop⟩⟩) := by
    rw [nexpr, if_pos (by decide), primary, if_neg (by decide), if_neg (by decide)]
    dsimp only
    rw [hlex, ok_bind]
    dsimp only
    rw [binop, hzero, ok_bind]
    dsimp only
    rw [hlex, ok_bind]
    dsimp only
    rw [htwo, ok_bind]
    dsimp only
    rw [Option.getD_some]
    cases binary w a n c <;> rfl
  cases hr : binary w a n c with
  | error e =>
    rw [hr] at hnexpr
    exact evalExpr_error (hk ▸ oexpr_error hnexpr)
  | ok r =>
    rw [hr] at hnexpr
    exact evalExpr_value (hk ▸ oexpr_single hnexpr (tLex_after hc) (by decide) (by decide)) hc

/-! ### `-a` and `-o` -/

/-- `-a` or `-o`. -/
def Junction (s : Text) : Prop := s = ['-', 'a'] ∨ s = ['-', 'o']

instance (s : Text) : Decidable (Junction s) := inferInstanceAs (Decidable (_ ∨ _))

/-- A word that is not taken for an operator before another one. -/
structure Plain (s : Text) : Prop where
  unop : ∀ {text n}, getop s ≠ some ⟨text, n, .unop⟩
  bang : s ≠ ['!']
  paren : s ≠ ['(']

theorem tLex_plain (h : argv.drop i = some a :: tail) (ha : Plain a) :
    tLex argv i = .ok (lastToken a) := by
  have hword : argv.word i = .ok (some a) := word_drop h 0
  rw [tLex, hword, ok_bind, lastToken]
  cases hop : getop a with
  | none =>
    simp only [hop]
    rfl
  | some op =>
    have hun : op.opType ≠ .unop := by
      obtain ⟨text, n, _⟩ := op
      rintro rfl
      exact ha.unop hop
    have hpar : op.opNum ≠ .lparen := fun hn => ha.paren ((getop_facts hop).lparen.mp hn)
    simp [hop, hun, hpar, ok_bind, pure_eq_ok]

theorem tLex_junction (h : argv.drop i = some s :: tail) (hs : Junction s) : ∃ text n,
    tLex argv i = .ok (n, some ⟨text, n, .bbinop⟩) ∧ (n = .band ↔ s = ['-', 'a']) ∧
      (n = .bor ↔ s = ['-', 'o']) ∧ n ≠ .eoi ∧ n ≠ .rparen ∧ n ≠ .unot ∧ n ≠ .lparen := by
  have hword : argv.word i = .ok (some s) := word_drop h 0
  rcases hs with rfl | rfl
  · exact ⟨"-a", .band, by rw [tLex, hword, ok_bind]; rfl, by decide⟩
  · exact ⟨"-o", .bor, by rw [tLex, hword, ok_bind]; rfl, by decide⟩

/-- A word that is not taken for an operator, before `-a` or `-o`. -/
theorem nexpr_plain (h : argv.drop i = some a :: some b :: tail) (ha : Plain a) (hb : Junction b) :
    ∃ o, nexpr w argv (fuel + 2) (lastToken a).1 ⟨i, (lastToken a).2⟩ = .ok (one a, ⟨i, o⟩) := by
  have hfacts := lastToken_facts a
  have hword : argv.word i = .ok (some a) := word_drop h 0
  have hone : decide (a.length > 0) = one a := by
    cases a <;> simp [one]
  obtain ⟨text, n, hlex, -⟩ := tLex_junction (drop_succ h) hb
  refine ⟨some ⟨text, n, .bbinop⟩, ?_⟩
  rw [nexpr, if_pos fun hn => ha.bang (hfacts.unot.mp hn), primary, if_neg hfacts.eoi,
    if_neg hfacts.lparen]
  dsimp only
  split
  case h_1 _ _ heq => exact absurd rfl (hfacts.unop _ heq)
  case h_2 =>
    rw [hlex, ok_bind]
    dsimp only
    rw [hword, ok_bind, Option.getD_some, hone]
    rfl

/-- `-a` or `-o` between two words. -/
theorem lexAndEval_junction (h : argv.drop i = some a :: some b :: some c :: none :: tail)
    (ha : Plain a) (hb : Junction b) :
    lexAndEval w argv i res =
      .ok (res ^^ if b = ['-', 'a'] then one a && one c else one a || one c) := by
  obtain ⟨k, hk⟩ := testFuel_eq argv h
  have hdb := drop_succ h
  have hdc := drop_succ hdb
  obtain ⟨text, n, hlex, hband, hbor, -⟩ := tLex_junction hdb hb
  obtain ⟨o, hnexpr⟩ := @nexpr_plain w argv _ i (k + 8) a b h ha hb
  rw [lexAndEval, tLex_plain h ha, ok_bind]
  change evalExpr w argv i res (lastToken a).1 (lastToken a).2 = _
  refine @evalExpr_value w argv tail i c res _ _ none (i + 2) _ ?_ hdc
  by_cases hand : b = ['-', 'a']
  · have haexpr : aexpr w argv (k + 11) true (lastToken a).1 ⟨i, (lastToken a).2⟩ =
        .ok (one a && one c, ⟨i + 2, none⟩) := by
      rw [aexpr, hnexpr, ok_bind]
      dsimp only
      rw [hlex, ok_bind]
      dsimp only
      rw [if_neg (not_not.mpr (hband.mpr hand)), tLex_last hdc, ok_bind]
      exact aexpr_single (nexpr_last hdc) (tLex_after hdc) (by decide)
    rw [hk, if_pos hand]
    exact oexpr_done haexpr (tLex_after hdc) (by decide)
  · have hor : n = .bor := hbor.mpr (hb.resolve_left hand)
    have haexpr := @aexpr_single w argv (k + 10) true _ n _ _ _ _ (one a) hnexpr hlex
      (fun hn => hand (hband.mp hn))
    rw [hk, if_neg hand, oexpr, haexpr, ok_bind]
    dsimp only
    rw [hlex, ok_bind]
    dsimp only
    rw [if_neg (not_not.mpr hor), tLex_last hdc, ok_bind]
    exact oexpr_single (nexpr_last hdc) (tLex_after hdc) (by decide) (by decide)

/-! ### A second word that is no operand -/

/-- What is in `argv` behind the NULL after the last word: that of the `]`. -/
def closing (bracket : Bool) : Argv := if bracket then [none] else []

variable {bracket v : Bool} {t : Text}

theorem tLex_closing (h : argv.drop i = none :: closing bracket) :
    tLex argv (i + 1) = if bracket then .ok (.eoi, none) else .error .outside := by
  have hword : argv.word (i + 1) = Argv.word (none :: closing bracket) 1 := word_drop h 1
  rw [tLex, hword]
  cases bracket <;> rfl

theorem nexpr_eoi : nexpr w argv (fuel + 2) .eoi st = .ok (false, st) := by
  rw [nexpr, if_pos (by decide), primary, if_pos rfl]
  rfl

/-- An `-a` or `-o` that nothing follows has an empty operand, and the word behind is looked at. -/
theorem oexpr_trailing (hr : nexpr w argv (fuel + 4) n st = .ok (v, ⟨j, o⟩))
    (h : argv.drop (j + 1) = some t :: none :: closing bracket) (ht : Junction t) :
    oexpr w argv (fuel + 6) false n st =
      if bracket then .ok (decide (t = ['-', 'o']) && v, ⟨j + 2, none⟩) else .error .outside := by
  have hdrop := drop_succ h
  have hbehind := tLex_closing hdrop
  have hend : tLex argv (j + 2) = .ok (.eoi, none) := tLex_end hdrop
  obtain ⟨text, n', hlex, hband, hbor, -⟩ := tLex_junction h ht
  rcases ht with rfl | rfl
  · have hn : n' = .band := hband.mpr rfl
    have haexpr : aexpr w argv (fuel + 5) true n st =
        if bracket then .ok (false, ⟨j + 2, none⟩) else .error .outside := by
      rw [aexpr, hr, ok_bind]
      dsimp only
      rw [hlex, ok_bind]
      dsimp only
      rw [if_neg (not_not.mpr hn), hend, ok_bind]
      dsimp only
      rw [aexpr, nexpr_eoi, ok_bind]
      dsimp only
      rw [hbehind]
      cases bracket
      · rfl
      · simp [ok_bind, pure_eq_ok]
    rw [oexpr, haexpr]
    cases bracket
    · rfl
    · rw [if_pos rfl, ok_bind]
      dsimp only
      rw [hbehind]
      rfl
  · have hn : n' = .bor := hbor.mpr rfl
    have hne : n' ≠ .band := hn ▸ by decide
    rw [oexpr, aexpr_single hr hlex hne, ok_bind]
    dsimp only
    rw [hlex, ok_bind]
    dsimp only
    rw [if_neg (not_not.mpr hn), hend, ok_bind]
    dsimp only
    rw [oexpr, aexpr, nexpr_eoi, ok_bind]
    dsimp only
    rw [hbehind]
    cases bracket
    · rfl
    · rw [if_pos rfl, ok_bind]
      dsimp only
      rw [if_pos (by decide), pure_eq_ok, ok_bind]
      dsimp only
      rw [hbehind]
      simp [ok_bind, pure_eq_ok]

/-- The first word has made an operand; the second one is left. -/
theorem evalExpr_second (hr : ∀ k, nexpr w argv (k + 10) n ⟨i, o⟩ = .ok (v, ⟨j, o'⟩))
    (h : argv.drop j = some s :: some t :: none :: closing bracket) :
    evalExpr w argv i res n o =
      if Junction t then
        if bracket then .ok (res ^^ (decide (t = ['-', 'o']) && v)) else .error .outside
      else .error (syntaxError (some s) "unexpected operator") := by
  obtain ⟨k, hk⟩ := testFuel_eq argv h
  have hdrop := drop_succ h
  by_cases ht : Junction t
  · have ho := oexpr_trailing (hr k) hdrop ht
    rw [← hk] at ho
    rw [if_pos ht]
    cases bracket with
    | false => exact evalExpr_error ho
    | true => exact evalExpr_end ho (drop_succ hdrop)
  · have hlast := lastToken_facts t
    rw [if_neg ht]
    have ho := @oexpr_single w argv _ false _ _ _ _ _ _ _ (hr k) (tLex_last hdrop)
      (fun hn => ht (.inl (hlast.band.mp hn))) fun hn => ht (.inr (hlast.bor.mp hn))
    rw [← hk] at ho
    exact evalExpr_left ho h

/-- A unary operator takes `-a` or `-o` for its operand. -/
theorem lexAndEval_unop_second {text : String}
    (h : argv.drop i = some a :: some b :: some t :: none :: closing bracket)
    (hop : getop a = some ⟨text, n, .unop⟩) (hb : Junction b) :
    lexAndEval w argv i res = unary w n b >>= fun v =>
      if Junction t then
        if bracket then .ok (res ^^ (decide (t = ['-', 'o']) && v)) else .error .outside
      else .error (syntaxError (some b) "unexpected operator") := by
  obtain ⟨k, hk⟩ := testFuel_eq argv h
  have hone : argv.word (i + 1) = .ok (some b) := word_drop h 1
  have htwo : argv.word (i + 2) = .ok (some t) := word_drop h 2
  have hoperand : isoperand argv i = .ok false := by
    rw [isoperand, hone, ok_bind]
    dsimp only
    rw [htwo, ok_bind]
    rcases hb with rfl | rfl <;> rfl
  have hnexpr (k : ℕ) := @nexpr_unop w argv i k a b n text hop hone
  rw [lexAndEval, tLex_unop h hop hoperand, ok_bind]
  cases hv : unary w n b with
  | error e =>
    rw [hv] at hnexpr
    exact evalExpr_error (hk ▸ oexpr_error (hnexpr (k + 8)))
  | ok v =>
    rw [hv] at hnexpr
    exact evalExpr_second (fun k => hnexpr (k + 8)) (drop_succ h)

/-- What is left of an operator that nothing follows. -/
def afterLast (w : World) (argv : Argv) (i : ℕ) (op : Option TOp) : Except Stop (Bool × State) :=
  match op with
  | some ⟨_, _, .binop⟩ => binop w argv ⟨i, op⟩
  | _ => .ok (true, ⟨i, op⟩)

/-- `-a` or `-o` in the place of an operand is one, unless a binary operator follows. -/
theorem nexpr_junction {text : String} (h : argv.drop i = some b :: some t :: none :: tail)
    (hb : Junction b) (hn : n ≠ .eoi ∧ n ≠ .rparen ∧ n ≠ .unot ∧ n ≠ .lparen) :
    (¬ Junction t ∧ ∃ e, ∀ k, nexpr w argv (k + 2) n ⟨i, some ⟨text, n, .bbinop⟩⟩ = .error e) ∨
    ∃ o, ∀ k, nexpr w argv (k + 2) n ⟨i, some ⟨text, n, .bbinop⟩⟩ = .ok (true, ⟨i, o⟩) := by
  obtain ⟨heoi, -, hunot, hlparen⟩ := hn
  have hzero : argv.word i = .ok (some b) := word_drop h 0
  have htwo : argv.word (i + 2) = .ok none := word_drop h 2
  have hlex := tLex_last (drop_succ h)
  have hpos : decide (b.length > 0) = true := by
    rcases hb with rfl | rfl <;> rfl
  have hprimary (k : ℕ) : nexpr w argv (k + 2) n ⟨i, some ⟨text, n, .bbinop⟩⟩ =
      afterLast w argv i (lastToken t).2 := by
    rw [nexpr, if_pos hunot, primary, if_neg heoi, if_neg hlparen]
    dsimp only
    rw [hlex, ok_bind]
    generalize lastToken t = p
    obtain ⟨x, op⟩ := p
    rcases op with _ | ⟨text', n', type⟩
    · dsimp only
      rw [hzero, ok_bind, Option.getD_some, hpos]
      rfl
    · cases type <;> dsimp only [afterLast] <;>
        first | rfl | (rw [hzero, ok_bind, Option.getD_some, hpos]; rfl)
  cases ho : (lastToken t).2 with
  | none => exact .inr ⟨none, fun k => (hprimary k).trans (by rw [ho]; rfl)⟩
  | some op =>
    obtain ⟨text', n', type⟩ := op
    by_cases htype : type = .binop
    · subst htype
      have ht : ¬ Junction t := by
        rintro (rfl | rfl) <;> cases ho
      refine .inl ⟨ht, syntaxError (some text'.toList) "argument expected", fun k => ?_⟩
      rw [hprimary, ho, afterLast, binop, hzero, ok_bind]
      dsimp only
      rw [hlex, ok_bind, show lastToken t = ((lastToken t).1, some ⟨text', n', .binop⟩) by rw [← ho]]
      dsimp only
      rw [htwo, ok_bind]
    · refine .inr ⟨some ⟨text', n', type⟩, fun k => ?_⟩
      rw [hprimary, ho]
      cases type <;> first | rfl | exact absurd rfl htype

/-- `-a` or `-o` and one word. -/
theorem lexAndEval_junction_second
    (h : argv.drop i = some b :: some t :: none :: closing bracket) (hb : Junction b) :
    lexAndEval w argv i res = .ok r ↔
      bracket ∧ Junction t ∧ r = (res ^^ decide (t = ['-', 'o'])) := by
  obtain ⟨k, hk⟩ := testFuel_eq argv h
  obtain ⟨text, n, hlex, -, -, hn⟩ := tLex_junction h hb
  rw [lexAndEval, hlex, ok_bind]
  dsimp only
  rcases @nexpr_junction w _ _ i b n t text h hb hn with ⟨hbinary, e, herr⟩ | ⟨o, hok⟩
  · rw [evalExpr_error (hk ▸ oexpr_error (herr (k + 8)))]
    exact iff_of_false nofun fun hr => hbinary hr.2.1
  · rw [evalExpr_second (fun k => hok (k + 8)) h]
    by_cases ht : Junction t
    · cases bracket
      · rw [if_pos ht]
        exact iff_of_false nofun fun hr => absurd hr.1 (by decide)
      · simp [ht, eq_comm]
    · rw [if_neg ht]
      exact iff_of_false nofun fun hr => ht hr.2.1

/-- `(` before `-a` or `-o` is not closed. -/
theorem lexAndEval_paren_second
    (h : argv.drop i = some ['('] :: some b :: some t :: none :: closing bracket)
    (hb : Junction b) (ht : t ≠ [')']) : lexAndEval w argv i res ≠ .ok r := by
  obtain ⟨k, hk⟩ := testFuel_eq argv h
  have hdb := drop_succ h
  have hdt := drop_succ hdb
  have hlast := lastToken_facts t
  obtain ⟨text, n, hlexb, -, -, hn⟩ := tLex_junction hdb hb
  have hlex : tLex argv i = .ok (.lparen, some ⟨"(", .lparen, .paren⟩) := by
    have hzero : argv.word i = .ok (some ['(']) := word_drop h 0
    have hone : argv.word (i + 1) = .ok (some b) := word_drop h 1
    have hop : getop ['('] = some ⟨"(", .lparen, .paren⟩ := by decide
    rw [tLex, hzero, ok_bind]
    simp [hop, hone, ok_bind, pure_eq_ok]
  have hunclosed : ∃ e, (oexpr w argv (k + 8) false n ⟨i + 1, some ⟨text, n, .bbinop⟩⟩ >>= fun p =>
      tLex argv (p.2.wp + 1) >>= fun q =>
      if q.1 ≠ Token.rparen then .error (syntaxError none "closing paren expected")
      else pure (p.1, (⟨p.2.wp + 1, q.2⟩ : State))) = .error e := by
    rcases @nexpr_junction w _ _ (i + 1) b n t text hdb hb hn with ⟨-, e, herr⟩ | ⟨o, hok⟩
    · exact ⟨e, by rw [oexpr_error (herr (k + 4))]; rfl⟩
    · by_cases hjunction : Junction t
      · rw [oexpr_trailing (hok (k + 4)) hdt hjunction]
        cases bracket with
        | false => exact ⟨.outside, rfl⟩
        | true =>
          refine ⟨syntaxError none "closing paren expected", ?_⟩
          rw [if_pos rfl, ok_bind]
          dsimp only
          rw [tLex_closing (drop_succ hdt), if_pos rfl, ok_bind]
          rfl
      · refine ⟨syntaxError none "closing paren expected", ?_⟩
        rw [oexpr_single (hok (k + 4)) (tLex_last hdt) (fun hn => hjunction (.inl (hlast.band.mp hn)))
          (fun hn => hjunction (.inr (hlast.bor.mp hn))), ok_bind]
        dsimp only
        rw [tLex_last hdt, ok_bind]
        rw [if_pos fun hn => ht (hlast.rparen.mp hn)]
  obtain ⟨e, he⟩ := hunclosed
  have hnexpr : nexpr w argv (k + 10) .lparen ⟨i, some ⟨"(", .lparen, .paren⟩⟩ = .error e := by
    rw [nexpr, if_pos (by decide), primary, if_neg (by decide), if_pos rfl]
    dsimp only
    rw [hlexb, ok_bind]
    dsimp only
    rw [if_neg hn.2.1]
    exact he
  rw [lexAndEval, hlex, ok_bind]
  dsimp only
  rw [evalExpr_error (hk ▸ oexpr_error hnexpr)]
  exact fun h => by cases h

/-- The rule for two words. -/
theorem lexAndEval_two {q : Except Stop Bool} (h : argv.drop i = some a :: some b :: none :: tail)
    (hq : two w a b = some q) : lexAndEval w argv i res = q.map (res ^^ ·) := by
  unfold two at hq
  split at hq
  case isTrue ha =>
    subst ha
    cases hq
    exact lexAndEval_bang h
  case isFalse =>
    split at hq
    case h_1 text n hop =>
      cases hq
      exact lexAndEval_unop h hop
    case h_2 => cases hq

/-! ### Three words -/

theorem recheck_three (h : argv.drop i = some a :: some b :: some c :: tail) :
    recheck w argv i 3 res =
      if (getop b).any (·.opType == .binop) then evalExpr w argv i res .operand none
      else if a = ['('] ∧ c = [')'] then lexAndEval w (argv.set (i + 2) none) (i + 1) res
      else if a = ['!'] then lexAndEval w argv (i + 1) false
      else lexAndEval w argv i res := by
  have hzero : argv.word i = .ok (some a) := word_drop h 0
  have hone : argv.word (i + 1) = .ok (some b) := word_drop h 1
  have htwo : argv.word (i + 2) = .ok (some c) := word_drop h 2
  rw [recheck, if_pos rfl, hone, ok_bind]
  simp only [Option.bind_some, hzero, htwo, ok_bind, Option.some.injEq, true_or, if_true]
  simp [recheck, ok_bind, pure_eq_ok]

theorem three_junction (hb : Junction b) :
    three w a b c = some (.ok (if b = ['-', 'a'] then one a && one c else one a || one c)) := by
  rcases hb with rfl | rfl <;> rfl

theorem three_other (hbinop : (getop b).any (·.opType == .binop) = false) (hb : ¬ Junction b) :
    three w a b c = if a = ['!'] then (two w b c).map negate
      else if a = ['('] ∧ c = [')'] then some (.ok (one b)) else none := by
  unfold three
  split
  case h_1 hop => simp [hop] at hbinop
  case h_2 hop =>
    exact absurd (.inl ((getop_facts hop).band.mp rfl)) hb
  case h_3 hop =>
    exact absurd (.inr ((getop_facts hop).bor.mp rfl)) hb
  case h_4 => rfl

/-- Three words that are not read by the rules: an `-a` or `-o` between others after `!`, after a
unary operator or after `(`; and, where a `!` came before them (`res` is `false`), another `!`.
After `[` the word behind the last one is a NULL as well, and some of them come out right. -/
def Misread (w : World) (bracket res : Bool) (a b c : Text) : Prop :=
  Junction b ∧ (a = ['!'] ∧ ¬ (bracket ∧ c = if res then ['-', 'a'] else ['-', 'o']) ∨
    (∃ text n, getop a = some ⟨text, n, .unop⟩ ∧
      ¬ (bracket ∧ c = ['-', 'o'] ∧ unary w n b = .ok true)) ∨
    a = ['('] ∧ c ≠ [')']) ∨
  res = false ∧ a = ['!'] ∧ ∃ v, two w b c = some (.ok v)

/-- What three words give, against the rule. -/
def ReadRight (w : World) (argv : Argv) (i : ℕ) (res : Bool) (a b c : Text) : Prop :=
  ∀ q, three w a b c = some q → recheck w argv i 3 res = q.map (res ^^ ·)

theorem readRight_binop {text : String}
    (h : argv.drop i = some a :: some b :: some c :: none :: tail)
    (hop : getop b = some ⟨text, n, .binop⟩) : ReadRight w argv i res a b c := by
  intro q hq
  have hthree : three w a b c = some (binary w a n c) := by rw [three, hop]
  rw [hthree] at hq
  cases hq
  rw [recheck_three h, hop, if_pos (by simp)]
  exact evalExpr_binop h hop

theorem readRight_paren (h : argv.drop i = some ['('] :: some b :: some [')'] :: none :: tail)
    (hbinop : (getop b).any (·.opType == .binop) = false) :
    ReadRight w argv i res ['('] b [')'] := by
  intro q hq
  have hset : (argv.set (i + 2) none).drop (i + 1) = some b :: none :: none :: tail := by
    rw [List.drop_set, if_neg (by omega), drop_succ h, show i + 2 - (i + 1) = 1 by omega]
    rfl
  have hq' : q = .ok (one b) := by
    by_cases hb : Junction b
    · rw [three_junction hb] at hq
      rcases hb with rfl | rfl <;> (cases hq; rfl)
    · rw [three_other hbinop hb, if_neg (by decide), if_pos ⟨rfl, rfl⟩] at hq
      exact (Option.some.inj hq).symm
  rw [hq', recheck_three h, if_neg (by simp [hbinop]), if_pos ⟨rfl, rfl⟩, lexAndEval_one hset]
  rfl

theorem junction_not_binop (hb : Junction b) : (getop b).any (·.opType == .binop) = false := by
  rcases hb with rfl | rfl <;> rfl

/-- The rule for three words with `-a` or `-o` in the middle is met where the code gets its value. -/
theorem readRight_junction (hb : Junction b) : ReadRight w argv i res a b c ↔
    recheck w argv i 3 res =
      .ok (res ^^ if b = ['-', 'a'] then one a && one c else one a || one c) := by
  rw [ReadRight, three_junction hb]
  simp [Except.map]

/-- With an operand that is not empty on the left, and an `-a` or `-o` on the right. -/
theorem junction_value (ha : a ≠ []) (hc : Junction c) :
    (if b = ['-', 'a'] then one a && one c else one a || one c) = true := by
  have hone : one a = true := decide_eq_true ha
  have hone' : one c = true := by
    rcases hc with rfl | rfl <;> rfl
  rw [hone, hone']
  split <;> rfl

theorem readRight_bang_junction
    (h : argv.drop i = some ['!'] :: some b :: some c :: none :: closing bracket)
    (hb : Junction b) : ReadRight w argv i res ['!'] b c ↔
      bracket ∧ c = if res then ['-', 'a'] else ['-', 'o'] := by
  rw [readRight_junction hb, recheck_three h, if_neg (by simp [junction_not_binop hb]),
    if_neg (by simp), if_pos rfl, lexAndEval_junction_second (drop_succ h) hb]
  constructor
  · rintro ⟨hbracket, hc, hvalue⟩
    rw [junction_value (by simp) hc] at hvalue
    refine ⟨hbracket, ?_⟩
    rcases hc with rfl | rfl <;> cases res <;> first | rfl | cases hvalue
  · rintro ⟨hbracket, hc⟩
    have hjunction : Junction c := by
      cases res
      · exact .inr hc
      · exact .inl hc
    refine ⟨hbracket, hjunction, ?_⟩
    rw [junction_value (by simp) hjunction]
    subst hc
    cases res <;> rfl

theorem readRight_unop_junction {text : String}
    (h : argv.drop i = some a :: some b :: some c :: none :: closing bracket)
    (hop : getop a = some ⟨text, n, .unop⟩) (hb : Junction b) : ReadRight w argv i res a b c ↔
      bracket ∧ c = ['-', 'o'] ∧ unary w n b = .ok true := by
  have hfacts := getop_facts hop
  have hbang : a ≠ ['!'] := fun ha => by cases hfacts.bunop.mpr ha
  have hparen : a ≠ ['('] := fun ha => by cases hfacts.paren.mpr (.inl ha)
  rw [readRight_junction hb, recheck_three h, if_neg (by simp [junction_not_binop hb]),
    if_neg (by simp [hparen]), if_neg hbang, lexAndEval_unop_second h hop hb]
  cases hv : unary w n b with
  | error e => exact iff_of_false nofun fun hr => by cases hr.2.2
  | ok v =>
    rw [ok_bind]
    by_cases hc : Junction c
    · rw [if_pos hc, junction_value hfacts.nonempty hc]
      cases bracket
      · exact iff_of_false nofun fun hr => absurd hr.1 (by decide)
      · rcases hc with rfl | rfl <;> cases v <;> cases res <;> simp
    · rw [if_neg hc]
      exact iff_of_false nofun fun hr => hc (.inr hr.2.1)

theorem readRight_paren_junction
    (h : argv.drop i = some ['('] :: some b :: some c :: none :: closing bracket)
    (hb : Junction b) (hc : c ≠ [')']) : ¬ ReadRight w argv i res ['('] b c := by
  rw [readRight_junction hb, recheck_three h, if_neg (by simp [junction_not_binop hb]),
    if_neg (by simp [hc]), if_neg (by decide)]
  exact lexAndEval_paren_second h hb hc

theorem readRight_plain_junction
    (h : argv.drop i = some a :: some b :: some c :: none :: tail)
    (ha : Plain a) (hb : Junction b) : ReadRight w argv i res a b c := by
  rw [readRight_junction hb, recheck_three h, if_neg (by simp [junction_not_binop hb]),
    if_neg (by simp [ha.paren]), if_neg ha.bang]
  exact lexAndEval_junction h ha hb

/-- `!` before two words. -/
theorem readRight_bang (h : argv.drop i = some ['!'] :: some b :: some c :: none :: tail)
    (hbinop : (getop b).any (·.opType == .binop) = false) (hb : ¬ Junction b) :
    ReadRight w argv i res ['!'] b c ↔ ¬ (res = false ∧ ∃ v, two w b c = some (.ok v)) := by
  rw [ReadRight, three_other hbinop hb, if_pos rfl, recheck_three h, if_neg (by simp [hbinop]),
    if_neg (by simp), if_pos rfl]
  cases htwo : two w b c with
  | none => simp
  | some q =>
    rw [lexAndEval_two (drop_succ h) htwo]
    cases q with
    | error e => simp [negate, Except.map]
    | ok v => cases res <;> cases v <;> simp [negate, Except.map]

theorem two_not_binop (h : (getop a).any (·.opType == .binop)) : two w a b = none := by
  unfold two
  rw [if_neg (by rintro rfl; revert h; decide)]
  split
  case h_1 hop => simp [hop] at h
  case h_2 => rfl

theorem two_junction (ha : Junction a) : two w a b = none := by
  rcases ha with rfl | rfl <;> rfl

/-- Three words are read by the rules, except those that are misread. -/
theorem readRight_iff (h : argv.drop i = some a :: some b :: some c :: none :: closing bracket) :
    ReadRight w argv i res a b c ↔ ¬ Misread w bracket res a b c := by
  by_cases hb : Junction b
  · have hmisread : Misread w bracket res a b c ↔
        (a = ['!'] ∧ ¬ (bracket ∧ c = if res then ['-', 'a'] else ['-', 'o']) ∨
          (∃ text n, getop a = some ⟨text, n, .unop⟩ ∧
            ¬ (bracket ∧ c = ['-', 'o'] ∧ unary w n b = .ok true)) ∨
          a = ['('] ∧ c ≠ [')']) := by
      simp [Misread, hb, two_junction hb]
    rw [hmisread]
    by_cases hbang : a = ['!']
    · subst hbang
      rw [readRight_bang_junction h hb]
      simp [show getop ['!'] = some ⟨"!", .unot, .bunop⟩ by decide]
    · by_cases hparen : a = ['(']
      · subst hparen
        by_cases hc : c = [')']
        · subst hc
          refine iff_of_true (readRight_paren h (junction_not_binop hb)) ?_
          simp [show getop ['('] = some ⟨"(", .lparen, .paren⟩ by decide]
        · exact iff_of_false (readRight_paren_junction h hb hc) (by simp [hc])
      · by_cases hop : ∃ text n, getop a = some ⟨text, n, .unop⟩
        · obtain ⟨text, n, hop⟩ := hop
          rw [readRight_unop_junction h hop hb]
          simp [hbang, hparen, hop]
        · have ha : Plain a := ⟨fun {text n} hun => hop ⟨text, n, hun⟩, hbang, hparen⟩
          refine iff_of_true (readRight_plain_junction h ha hb) ?_
          simp only [hbang, hparen, false_and, or_false, false_or]
          rintro ⟨text, n, hun, -⟩
          exact hop ⟨text, n, hun⟩
  · have hmisread : Misread w bracket res a b c ↔
        res = false ∧ a = ['!'] ∧ ∃ v, two w b c = some (.ok v) := by
      simp [Misread, hb]
    rw [hmisread]
    by_cases hbinop : (getop b).any (·.opType == .binop)
    · obtain ⟨text, n, hop⟩ : ∃ text n, getop b = some ⟨text, n, .binop⟩ := by
        cases hop : getop b with
        | none => simp [hop] at hbinop
        | some op =>
          obtain ⟨text, n, type⟩ := op
          obtain rfl : type = .binop := by simpa [hop] using hbinop
          exact ⟨text, n, rfl⟩
      refine iff_of_true (readRight_binop h hop) ?_
      simp [two_not_binop hbinop]
    · rw [Bool.not_eq_true] at hbinop
      by_cases hbang : a = ['!']
      · subst hbang
        rw [readRight_bang h hbinop hb]
        simp
      · refine iff_of_true ?_ (by simp [hbang])
        by_cases hparen : a = ['('] ∧ c = [')']
        · obtain ⟨rfl, rfl⟩ := hparen
          exact readRight_paren h hbinop
        · intro q hq
          rw [three_other hbinop hb, if_neg hbang, if_neg hparen] at hq
          cases hq

/-! ### The command -/

/-- How `test` or `[` is called. -/
def invocation (bracket : Bool) (args : List Text) : List Text :=
  if bracket then ['['] :: args ++ [[']']] else "test".toList :: args

theorem testcmd_recheck (bracket : Bool) (args : List Text) : ∃ argv : Argv,
    argv.drop 1 = args.map some ++ none :: closing bracket ∧
      testcmd w (invocation bracket args) = recheck w argv 1 args.length true := by
  cases bracket with
  | false =>
    refine ⟨some "test".toList :: (args.map some ++ [none]), rfl, ?_⟩
    rfl
  | true =>
    refine ⟨some ['['] :: (args.map some ++ [none, none]), rfl, ?_⟩
    have hlast : (['['] :: args ++ [[']']]).getLast? = some [']'] := List.getLast?_concat
    have hset : ((['['] :: args ++ [[']']]).map some ++ [none]).set
        ((['['] :: args ++ [[']']]).length - 1) none =
          some ['['] :: (args.map some ++ [none, none]) := by
      simp
    rw [testcmd, invocation, if_pos rfl, if_pos (by simp), hlast]
    rw [hset]
    simp

theorem recheck_four (h : argv.drop i = some a :: some b :: some c :: some t :: tail) :
    recheck w argv i 4 res =
      if a = ['('] ∧ t = [')'] then lexAndEval w (argv.set (i + 3) none) (i + 1) res
      else if a = ['!'] then recheck w argv (i + 1) 3 false
      else lexAndEval w argv i res := by
  have hzero : argv.word i = .ok (some a) := word_drop h 0
  have hthree : argv.word (i + 3) = .ok (some t) := word_drop h 3
  rw [recheck]
  simp [hzero, hthree, ok_bind, pure_eq_ok]

theorem negate_negate (q : Except Stop Bool) : negate (negate q) = q := by
  cases q with
  | error e => rfl
  | ok v => exact congrArg Except.ok (Bool.not_not v)

theorem map_false_xor (q : Except Stop Bool) : q.map (false ^^ ·) = q := by
  cases q with
  | error e => rfl
  | ok v => exact congrArg Except.ok (Bool.false_xor v)

theorem map_true_xor (q : Except Stop Bool) : q.map (true ^^ ·) = negate q := by
  cases q with
  | error e => rfl
  | ok v => exact congrArg Except.ok (Bool.true_xor v)

/-- The arguments that are not read by the rules. -/
def MisreadArgs (w : World) (bracket : Bool) : List Text → Prop
  | [a, b, c] => Misread w bracket true a b c
  | [a, b, c, d] => a = ['!'] ∧ Misread w bracket false b c d
  | _ => False

/-- `test` gives what POSIX prescribes by the number of the arguments, with the exit status 1 for
false, exactly where they are not misread. -/
theorem testcmd_prescribed_iff (w : World) (bracket : Bool) (args : List Text) :
    (∀ q, prescribed w args = some q → testcmd w (invocation bracket args) = negate q) ↔
      ¬ MisreadArgs w bracket args := by
  obtain ⟨argv, h, heq⟩ := @testcmd_recheck w bracket args
  rw [heq]
  match args with
  | [] =>
    refine iff_of_true ?_ not_false
    rintro q hq
    cases hq
    rfl
  | [a] =>
    refine iff_of_true ?_ not_false
    rintro q hq
    cases hq
    have hrecheck : recheck w argv 1 1 true = lexAndEval w argv 1 true := by
      simp [recheck, ok_bind, pure_eq_ok]
    rw [List.length_singleton, hrecheck, lexAndEval_one h]
    exact congrArg Except.ok (Bool.true_xor _)
  | [a, b] =>
    refine iff_of_true ?_ not_false
    intro q hq
    have hrecheck : recheck w argv 1 2 true = lexAndEval w argv 1 true := by
      simp [recheck, ok_bind, pure_eq_ok]
    rw [List.length_cons, List.length_singleton, hrecheck, lexAndEval_two h hq, map_true_xor]
  | [a, b, c] =>
    have hright := @readRight_iff w argv 1 a b c true bracket h
    simp only [ReadRight, map_true_xor] at hright
    exact hright
  | [a, b, c, d] =>
    change (∀ q, four w a b c d = some q → recheck w argv 1 4 true = negate q) ↔
      ¬ (a = ['!'] ∧ Misread w bracket false b c d)
    rw [recheck_four h]
    by_cases hbang : a = ['!']
    · subst hbang
      have hright := @readRight_iff w argv 2 b c d false bracket (drop_succ h)
      simp only [ReadRight, map_false_xor] at hright
      rw [if_neg (by simp), if_pos rfl, four, if_pos rfl,
        and_iff_right_of_imp fun _ => rfl, ← hright]
      constructor
      · intro hall q hq
        rw [hall (negate q) (by rw [hq]; rfl), negate_negate]
      · intro hall q hq
        obtain ⟨q', hq', rfl⟩ := Option.map_eq_some_iff.mp hq
        rw [hall q' hq', negate_negate]
    · refine iff_of_true ?_ fun hn => hbang hn.1
      intro q hq
      rw [four, if_neg hbang] at hq
      split at hq
      case isTrue hparen =>
        have hset : (argv.set 4 none).drop 2 = some b :: some c :: none :: none :: closing bracket := by
          rw [List.drop_set, if_neg (by omega), drop_succ h]
          rfl
        rw [if_pos hparen, lexAndEval_two hset hq, map_true_xor]
      case isFalse => cases hq
  | _ :: _ :: _ :: _ :: _ :: _ =>
    refine iff_of_true ?_ not_false
    intro q hq
    cases hq

end

/-- A machine without files. -/
def noFiles : World where
  stat64 _ := none
  lstat64 _ := none
  faccessat _ _ := false
  isatty _ := false
  euid := 0
  egid := 0

/-- `test ! ! -n x` is not negated a second time, and `test -f -a x` is no conjunction. -/
theorem testcmd_not_prescribed :
    ¬ (∀ w bracket args q, prescribed w args = some q →
      testcmd w (invocation bracket args) = negate q) ∧
    prescribed noFiles ["!".toList, "!".toList, "-n".toList, "x".toList] = some (.ok true) ∧
    testcmd noFiles (invocation false ["!".toList, "!".toList, "-n".toList, "x".toList]) =
      .ok true ∧
    prescribed noFiles ["-f".toList, "-a".toList, "x".toList] = some (.ok true) ∧
    testcmd noFiles (invocation false ["-f".toList, "-a".toList, "x".toList]) =
      .error (.error "-a: unexpected operator".toList) := by
  have htwice : prescribed noFiles ["!".toList, "!".toList, "-n".toList, "x".toList] =
      some (.ok true) := by rfl
  have hcode : testcmd noFiles
      (invocation false ["!".toList, "!".toList, "-n".toList, "x".toList]) = .ok true := by rfl
  refine ⟨?_, htwice, hcode, by rfl, by rfl⟩
  intro hall
  have := hall noFiles false _ _ htwice
  rw [hcode] at this
  cases this

end Bootsh.Test
