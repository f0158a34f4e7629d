import Bootsh.MyString
import Bootsh.Arith.Lexer

/-!
The expression evaluator of `arith_yacc.c`. The statics `arith_startbuf`,
`arith_buf`, `last_token`, the global `yylval` and the variable store are the
state. Recursion is bounded by fuel; `arith_fuel` shows that `arith` never runs
out of it.
-/
namespace Bootsh.Arith

/-- Why an evaluation stops without a value. C leaves a shift count out of range
`undefined`, and the overflowing division too, which the machine traps. -/
inductive Stop where
  | fuel
  | undefined
  | trap
  | shError (msg : Text)
  deriving DecidableEq, Repr

structure State (σ : Type) where
  startbuf : Text
  buf : Text
  lastToken : Token
  yylval : YYSType
  vars : σ

variable {σ : Type}

/-- Call `yylex` on the state. -/
def State.yylex (st : State σ) : Token × State σ :=
  let r := Arith.yylex st.yylval st.buf
  (r.token, { st with buf := r.buf, yylval := r.yylval })

/-- The text `yyerror` passes to `sh_error`. -/
def yyerror (startbuf : Text) (s : String) : Stop :=
  .shError ("arithmetic expression: ".toList ++ s.toList ++ ": \"".toList ++ startbuf ++ ['"'])

/-- The table `prec`. -/
def arithPrec : Binop → ℕ
  | .mul | .div | .rem => 0
  | .add | .sub => 1
  | .lshift | .rshift => 2
  | .lt | .le | .gt | .ge => 3
  | .eq | .ne => 4
  | .band => 5
  | .bxor => 6
  | .bor => 7

def arithMaxPrec : ℕ := 8

def higherPrec (op1 op2 : Binop) : Bool := decide (arithPrec op1 < arithPrec op2)

def ofBool (b : Bool) : IntMax := if b then 1 else 0

def shiftInRange (b : IntMax) : Bool := decide (0 ≤ b.toInt) && decide (b.toInt < 64)

def doBinop (startbuf : Text) (op : Binop) (a b : IntMax) : Except Stop IntMax :=
  match op with
  | .rem =>
    if b = 0 then .error (yyerror startbuf "division by zero")
    else if a = BitVec.intMin 64 ∧ b = -1 then .error .trap
    else .ok (a.srem b)
  | .div =>
    if b = 0 then .error (yyerror startbuf "division by zero")
    else if a = BitVec.intMin 64 ∧ b = -1 then .error .trap
    else .ok (a.sdiv b)
  | .mul => .ok (a * b)
  | .add => .ok (a + b)
  | .sub => .ok (a - b)
  | .lshift => if shiftInRange b then .ok (a <<< b.toNat) else .error .undefined
  | .rshift => if shiftInRange b then .ok (a.sshiftRight b.toNat) else .error .undefined
  | .lt => .ok (ofBool (a.slt b))
  | .le => .ok (ofBool (a.sle b))
  | .gt => .ok (ofBool (b.slt a))
  | .ge => .ok (ofBool (b.sle a))
  | .eq => .ok (ofBool (a == b))
  | .ne => .ok (ofBool (a != b))
  | .band => .ok (a &&& b)
  | .bxor => .ok (a ^^^ b)
  | .bor => .ok (a ||| b)

/-- Read `val` of the union. Where it holds a name, this is the address of the
name's copy. -/
def YYSType.toVal (addr : Text → IntMax) : YYSType → IntMax
  | .val v => v
  | .name s => addr s

def YYSType.toName : YYSType → Text
  | .val _ => []
  | .name s => s

/-- `ARITH_ASS` and the codes from `ARITH_ASS_MIN` to `ARITH_ASS_MAX`. -/
def Token.assignOp : Token → Option (Option Binop)
  | .ass => some none
  | .binopAss op => some (some op)
  | _ => none

/-- Raise the error of a library routine as a shell error. -/
def liftError {α : Type*} : Except Text α → Except Stop α
  | .ok a => .ok a
  | .error msg => .error (.shError msg)

section
variable (ops : VarOps σ) (addr : Text → IntMax)

/-- The value `assignment` stores: `do_binop(op - 11, ...)` reads the variable
after its right operand has been evaluated. -/
def assignValue (startbuf : Text) (op : Option Binop) (name : Text) (result : IntMax) (vars : σ) :
    Except Stop IntMax :=
  match op with
  | none => .ok result
  | some op => do
    let old ← liftError (ops.lookupvarint name vars)
    doBinop startbuf op old result

/-! The parameter `val` of the source is passed by reference; every caller
overwrites it before reading it again, so here it is passed by value. -/
mutual

def primary : ℕ → Token → YYSType → Token → Bool → State σ → Except Stop (IntMax × State σ)
  | 0, _, _, _, _, _ => .error .fuel
  | fuel + 1, token, val, op, noeval, st =>
    match token with
    | .lparen => do
      let (result, st) ← assignment fuel op noeval st
      if st.lastToken = .rparen then
        let (lastToken, st) := st.yylex
        return (result, { st with lastToken })
      else .error (yyerror st.startbuf "expecting ')'")
    | .num => .ok (val.toVal addr, { st with lastToken := op })
    | .var =>
      if noeval then .ok (val.toVal addr, { st with lastToken := op })
      else do
        let v ← liftError (ops.lookupvarint val.toName st.vars)
        return (v, { st with lastToken := op })
    | .binop .add =>
      let (op', st') := st.yylex
      primary fuel op st.yylval op' noeval st'
    | .binop .sub => do
      let (op', st') := st.yylex
      let (v, st'') ← primary fuel op st.yylval op' noeval st'
      return (-v, st'')
    | .not => do
      let (op', st') := st.yylex
      let (v, st'') ← primary fuel op st.yylval op' noeval st'
      return (ofBool (v == 0), st'')
    | .bnot => do
      let (op', st') := st.yylex
      let (v, st'') ← primary fuel op st.yylval op' noeval st'
      return (~~~v, st'')
    | _ => .error (yyerror st.startbuf "expecting primary")

def binop2 : ℕ → IntMax → Binop → ℕ → Bool → State σ → Except Stop (IntMax × State σ)
  | 0, _, _, _, _, _ => .error .fuel
  | fuel + 1, a, op, prec, noeval, st => do
    let (token, st) := st.yylex
    let val := st.yylval
    let (opNext, st) := st.yylex
    let (b, st) ← primary fuel token val opNext noeval st
    let (b, st) ← (match st.lastToken with
      | .binop op2 =>
        if higherPrec op2 op then binop2 fuel b op2 (arithPrec op) noeval st else .ok (b, st)
      | _ => .ok (b, st))
    let a ← (if noeval then .ok b else doBinop st.startbuf op a b)
    match st.lastToken with
    | .binop op2 => if prec ≤ arithPrec op2 then .ok (a, st) else binop2 fuel a op2 prec noeval st
    | _ => .ok (a, st)

def binop : ℕ → Token → YYSType → Token → Bool → State σ → Except Stop (IntMax × State σ)
  | 0, _, _, _, _, _ => .error .fuel
  | fuel + 1, token, val, op, noeval, st => do
    let (a, st) ← primary fuel token val op noeval st
    match st.lastToken with
    | .binop op => binop2 fuel a op arithMaxPrec noeval st
    | _ => .ok (a, st)

def and : ℕ → Token → YYSType → Token → Bool → State σ → Except Stop (IntMax × State σ)
  | 0, _, _, _, _, _ => .error .fuel
  | fuel + 1, token, val, op, noeval, st => do
    let (a, st) ← binop fuel token val op noeval st
    if st.lastToken = .and then
      let (token, st) := st.yylex
      let val := st.yylval
      let (op, st) := st.yylex
      let (b, st) ← and fuel token val op (noeval || a == 0) st
      return (ofBool (a != 0 && b != 0), st)
    else .ok (a, st)

def or : ℕ → Token → YYSType → Token → Bool → State σ → Except Stop (IntMax × State σ)
  | 0, _, _, _, _, _ => .error .fuel
  | fuel + 1, token, val, op, noeval, st => do
    let (a, st) ← and fuel token val op noeval st
    if st.lastToken = .or then
      let (token, st) := st.yylex
      let val := st.yylval
      let (op, st) := st.yylex
      let (b, st) ← or fuel token val op (noeval || a != 0) st
      return (ofBool (a != 0 || b != 0), st)
    else .ok (a, st)

def cond : ℕ → Token → YYSType → Token → Bool → State σ → Except Stop (IntMax × State σ)
  | 0, _, _, _, _, _ => .error .fuel
  | fuel + 1, token, val, op, noeval, st => do
    let (a, st) ← or fuel token val op noeval st
    if st.lastToken = .qmark then
      let (tok, st) := st.yylex
      let (b, st) ← assignment fuel tok (noeval || a == 0) st
      if st.lastToken = .colon then
        let (token, st) := st.yylex
        let val := st.yylval
        let (op, st) := st.yylex
        let (c, st) ← cond fuel token val op (noeval || a != 0) st
        return (if a != 0 then b else c, st)
      else .error (yyerror st.startbuf "expecting ':'")
    else .ok (a, st)

def assignment : ℕ → Token → Bool → State σ → Except Stop (IntMax × State σ)
  | 0, _, _, _ => .error .fuel
  | fuel + 1, tok, noeval, st => do
    let val := st.yylval
    let (op, st) := st.yylex
    match (if tok = .var then op.assignOp else none) with
    | none => cond fuel tok val op noeval st
    | some assign =>
      let (tok', st) := st.yylex
      let (result, st) ← assignment fuel tok' noeval st
      if noeval then return (result, st)
      else
        let v ← assignValue ops st.startbuf assign val.toName result st.vars
        let (v, vars) ← liftError (ops.setvarint val.toName v st.vars)
        return (v, { st with vars })

end

/-- Enough for every expression of this length. -/
def arithFuel (s : Text) : ℕ := 8 * s.length + 16

/-- `arith`, called with the statics as earlier calls left them. -/
def arith (st : State σ) (s : Text) : Except Stop (IntMax × State σ) := do
  let (token, st) := { st with startbuf := s, buf := s }.yylex
  let (result, st) ← assignment ops addr (arithFuel s) token false st
  if st.lastToken = .eof then return (result, st)
  else .error (yyerror st.startbuf "expecting EOF")

end
end Bootsh.Arith
