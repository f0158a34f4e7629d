import Bootsh.Lib.Munch
import Bootsh.Arith.Yacc

/-!
What arithmetic expansion is to compute, independently of how it is computed:
the lexical and phrase grammar of C expressions restricted to constants,
variables, and the operators of the shell, and their value.
-/
namespace Bootsh.Arith
open Munch

/-! ### Lexemes -/

/-- A constant keeps its mathematical value, which may exceed `intmax_t`. -/
inductive Lexeme where
  | num (n : ℕ)
  | var (name : Text)
  | sym (t : Token)
  deriving DecidableEq, Repr

/-- Decimal, octal and hexadecimal constants and their values. -/
inductive Constant : Text → ℕ → Prop
  | dec (c : Char) (ds : Text) : isDigit c → c ≠ '0' → (∀ d ∈ ds, isBaseDigit 10 d) →
      Constant (c :: ds) (magnitude 10 (c :: ds))
  | oct (ds : Text) : (∀ d ∈ ds, isBaseDigit 8 d) → Constant ('0' :: ds) (magnitude 8 ds)
  | hex (x : Char) (ds : Text) : x = 'x' ∨ x = 'X' → ds ≠ [] → (∀ d ∈ ds, isBaseDigit 16 d) →
      Constant ('0' :: x :: ds) (magnitude 16 ds)

def IsConstant (s : Text) : Prop := ∃ n, Constant s n

def IsIdentifier (s : Text) : Prop := ∃ c cs, s = c :: cs ∧ isName c ∧ ∀ d ∈ cs, isInName d

/-- The spellings of the operators. -/
def spellings : List (String × Token) :=
  [("=", .ass), ("||", .or), ("&&", .and), ("!", .not), ("(", .lparen), (")", .rparen),
    ("~", .bnot), ("?", .qmark), (":", .colon), ("<=", .binop .le), (">=", .binop .ge),
    ("<", .binop .lt), (">", .binop .gt), ("==", .binop .eq), ("%", .binop .rem),
    ("&", .binop .band), ("<<", .binop .lshift), (">>", .binop .rshift), ("*", .binop .mul),
    ("+", .binop .add), ("|", .binop .bor), ("-", .binop .sub), ("^", .binop .bxor),
    ("/", .binop .div), ("!=", .binop .ne), ("%=", .binopAss .rem), ("&=", .binopAss .band),
    ("<<=", .binopAss .lshift), (">>=", .binopAss .rshift), ("*=", .binopAss .mul),
    ("+=", .binopAss .add), ("|=", .binopAss .bor), ("-=", .binopAss .sub),
    ("^=", .binopAss .bxor), ("/=", .binopAss .div)]

def Spells (s : Text) (t : Token) : Prop := ∃ p ∈ spellings, p.1.toList = s ∧ p.2 = t

def IsSymbol (s : Text) : Prop := ∃ t, Spells s t

/-- The lexemes of an expression, each the longest possible, between blanks. -/
inductive Lexes : Text → List Lexeme → Prop
  | nil : Lexes [] []
  | blank {c s ls} : isBlankChar c → Lexes s ls → Lexes (c :: s) ls
  | num {s tok rest n ls} : Longest IsConstant s tok rest → Constant tok n → Lexes rest ls →
      Lexes s (.num n :: ls)
  | var {s tok rest ls} : Longest IsIdentifier s tok rest → Lexes rest ls →
      Lexes s (.var tok :: ls)
  | sym {s tok rest t ls} : Longest IsSymbol s tok rest → Spells tok t → Lexes rest ls →
      Lexes s (.sym t :: ls)

/-! ### Phrases -/

inductive Expr where
  | num (n : ℕ)
  | var (name : Text)
  | plus (e : Expr)
  | neg (e : Expr)
  | not (e : Expr)
  | bnot (e : Expr)
  | bin (op : Binop) (a b : Expr)
  | and (a b : Expr)
  | or (a b : Expr)
  | cond (a b c : Expr)
  | assign (name : Text) (op : Option Binop) (e : Expr)
  deriving DecidableEq, Repr

/-- The levels of the C binary operators, the tightest first. -/
def levels : List (List Binop) :=
  [[.mul, .div, .rem], [.add, .sub], [.lshift, .rshift], [.lt, .le, .gt, .ge], [.eq, .ne],
    [.band], [.bxor], [.bor]]

def level (op : Binop) : ℕ := levels.findIdx (fun ops => ops.contains op)

inductive Category where
  | unary
  | binary (k : ℕ)
  | conj
  | disj
  | cond
  | assign
  deriving DecidableEq, Repr

/-- `binary k` has operators of the `k` tightest levels only, associating to the
left. `&&` and `||` are written associating to the right, which changes no value:
see `eval_and_assoc`. -/
inductive Derives : Category → List Lexeme → Expr → Prop
  | num (n) : Derives .unary [.num n] (.num n)
  | var (x) : Derives .unary [.var x] (.var x)
  | paren {ts e} : Derives .assign ts e → Derives .unary (.sym .lparen :: (ts ++ [.sym .rparen])) e
  | plus {ts e} : Derives .unary ts e → Derives .unary (.sym (.binop .add) :: ts) (.plus e)
  | neg {ts e} : Derives .unary ts e → Derives .unary (.sym (.binop .sub) :: ts) (.neg e)
  | not {ts e} : Derives .unary ts e → Derives .unary (.sym .not :: ts) (.not e)
  | bnot {ts e} : Derives .unary ts e → Derives .unary (.sym .bnot :: ts) (.bnot e)
  | operand {ts e} : Derives .unary ts e → Derives (.binary 0) ts e
  | tighter {k ts e} : Derives (.binary k) ts e → Derives (.binary (k + 1)) ts e
  | bin {op ts us a b} : Derives (.binary (level op + 1)) ts a → Derives (.binary (level op)) us b →
      Derives (.binary (level op + 1)) (ts ++ .sym (.binop op) :: us) (.bin op a b)
  | single {ts e} : Derives (.binary 8) ts e → Derives .conj ts e
  | conj {ts us a b} : Derives (.binary 8) ts a → Derives .conj us b →
      Derives .conj (ts ++ .sym .and :: us) (.and a b)
  | ofConj {ts e} : Derives .conj ts e → Derives .disj ts e
  | disj {ts us a b} : Derives .conj ts a → Derives .disj us b →
      Derives .disj (ts ++ .sym .or :: us) (.or a b)
  | ofDisj {ts e} : Derives .disj ts e → Derives .cond ts e
  | cond {ts us vs a b c} : Derives .disj ts a → Derives .assign us b → Derives .cond vs c →
      Derives .cond (ts ++ .sym .qmark :: (us ++ .sym .colon :: vs)) (.cond a b c)
  | ofCond {ts e} : Derives .cond ts e → Derives .assign ts e
  | assign {ts e x t op} : t.assignOp = some op → Derives .assign ts e →
      Derives .assign (.var x :: .sym t :: ts) (.assign x op e)

/-- The expressions of the grammar, with constants of any size. -/
def Expression (s : Text) (e : Expr) : Prop := ∃ ls, Lexes s ls ∧ Derives .assign ls e

/-- Every constant of the expression is an `intmax_t`. -/
def ConstantsInRange (s : Text) : Prop := ∀ ls, Lexes s ls → ∀ n, .num n ∈ ls → n ≤ intMaxMax

/-! ### Values -/

/-- The value of a binary operator on integers; `none` where C leaves it undefined.
Only the result of an operator wraps around. -/
def binopValue (op : Binop) (a b : ℤ) : Option ℤ :=
  match op with
  | .mul => some (a * b)
  | .div => if a = -2 ^ 63 ∧ b = -1 then none else some (a.tdiv b)
  | .rem => if a = -2 ^ 63 ∧ b = -1 then none else some (a.tmod b)
  | .add => some (a + b)
  | .sub => some (a - b)
  | .lshift => if 0 ≤ b ∧ b < 64 then some (a * 2 ^ b.toNat) else none
  | .rshift => if 0 ≤ b ∧ b < 64 then some (a / 2 ^ b.toNat) else none
  | .lt => some (if a < b then 1 else 0)
  | .le => some (if a ≤ b then 1 else 0)
  | .gt => some (if a > b then 1 else 0)
  | .ge => some (if a ≥ b then 1 else 0)
  | .eq => some (if a = b then 1 else 0)
  | .ne => some (if a ≠ b then 1 else 0)
  | .band => some (BitVec.ofInt 64 a &&& BitVec.ofInt 64 b).toInt
  | .bxor => some (BitVec.ofInt 64 a ^^^ BitVec.ofInt 64 b).toInt
  | .bor => some (BitVec.ofInt 64 a ||| BitVec.ofInt 64 b).toInt

def divides (op : Binop) : Bool := op == .div || op == .rem

/-- `s` is the whole expression, which the error text quotes. -/
def applyBinop (s : Text) (op : Binop) (a b : IntMax) : Except Stop IntMax :=
  if divides op ∧ b.toInt = 0 then .error (yyerror s "division by zero")
  else match binopValue op a.toInt b.toInt with
    | some v => .ok (BitVec.ofInt 64 v)
    | none => .error (if divides op then .trap else .undefined)

section
variable {σ : Type} (ops : VarOps σ) (s : Text)

/-- Value and final variables of an expression; a constant that is too large
counts as the largest `intmax_t`. -/
def eval : Expr → σ → Except Stop (IntMax × σ)
  | .num n, vars => .ok ((saturate false n).1, vars)
  | .var x, vars => do
    let v ← liftError (ops.lookupvarint x vars)
    return (v, vars)
  | .plus e, vars => eval e vars
  | .neg e, vars => do
    let (v, vars) ← eval e vars
    return (-v, vars)
  | .not e, vars => do
    let (v, vars) ← eval e vars
    return (ofBool (v == 0), vars)
  | .bnot e, vars => do
    let (v, vars) ← eval e vars
    return (~~~v, vars)
  | .bin op a b, vars => do
    let (va, vars) ← eval a vars
    let (vb, vars) ← eval b vars
    let v ← applyBinop s op va vb
    return (v, vars)
  | .and a b, vars => do
    let (va, vars) ← eval a vars
    if va == 0 then return (0, vars)
    else
      let (vb, vars) ← eval b vars
      return (ofBool (vb != 0), vars)
  | .or a b, vars => do
    let (va, vars) ← eval a vars
    if va != 0 then return (1, vars)
    else
      let (vb, vars) ← eval b vars
      return (ofBool (vb != 0), vars)
  | .cond a b c, vars => do
    let (va, vars) ← eval a vars
    if va != 0 then eval b vars else eval c vars
  | .assign x op e, vars => do
    let (v, vars) ← eval e vars
    let v ← match op with
      | none => .ok v
      | some op => do
        let old ← liftError (ops.lookupvarint x vars)
        applyBinop s op old v
    liftError (ops.setvarint x v vars)

/-- Grouping `&&` to the right, as the grammar does, changes no value. -/
theorem eval_and_assoc (a b c : Expr) (vars : σ) :
    eval ops s (.and (.and a b) c) vars = eval ops s (.and a (.and b c)) vars := by
  simp only [eval, bind_assoc]
  congr 1
  funext ⟨va, vars⟩
  cases hva : va == 0
  · simp only [Bool.false_eq_true, if_false, bind_assoc]
    congr 1
    funext ⟨vb, vars⟩
    cases hvb : vb == 0
    · simp only [bne, hvb]
      change (eval ops s c vars >>= _) = (eval ops s c vars >>= _) >>= _
      rw [bind_assoc]
      congr 1
      funext ⟨vc, vars⟩
      cases vc == 0 <;> rfl
    · simp only [bne, hvb]
      rfl
  · rfl

theorem eval_or_assoc (a b c : Expr) (vars : σ) :
    eval ops s (.or (.or a b) c) vars = eval ops s (.or a (.or b c)) vars := by
  simp only [eval, bind_assoc]
  congr 1
  funext ⟨va, vars⟩
  cases hva : va == 0
  · simp only [bne, hva]
    rfl
  · simp only [bne, hva, Bool.not_true, Bool.false_eq_true, if_false, bind_assoc]
    congr 1
    funext ⟨vb, vars⟩
    cases vb == 0
    · rfl
    · change (eval ops s c vars >>= _) = (eval ops s c vars >>= _) >>= _
      rw [bind_assoc]
      congr 1
      funext ⟨vc, vars⟩
      cases vc == 0 <;> rfl

end
end Bootsh.Arith
