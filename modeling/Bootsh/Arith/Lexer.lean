import Bootsh.CString

/-! The tokens of arithmetic expressions and the scanner of `arith_yylex.c`. -/
namespace Bootsh.Arith

/-- The operators between `ARITH_BINOP_MIN` and `ARITH_BINOP_MAX`. -/
inductive Binop where
  | le | ge | lt | gt | eq | rem | band | lshift | rshift | mul | add | bor | sub | bxor | div | ne
  deriving DecidableEq, Repr

/-- The token codes of `arith_yacc.h`. `binop` are the codes from `ARITH_BINOP_MIN`
to `ARITH_BINOP_MAX`, and `binopAss op` is the code of `op` plus 11, between
`ARITH_ASS_MIN` and `ARITH_ASS_MAX`. Code 0 is the end of the expression. -/
inductive Token where
  | eof | ass | or | and | bad | num | var | not
  | binop (op : Binop)
  | binopAss (op : Binop)
  | lparen | rparen | bnot | qmark | colon
  deriving DecidableEq, Repr

/-- `union yystype`: a number, or the name of a variable. -/
inductive YYSType where
  | val (v : IntMax)
  | name (s : Text)
  deriving DecidableEq, Repr

/-- What a call of `yylex` leaves: its value, `yylval` and `arith_buf`. -/
structure Lexed where
  token : Token
  yylval : YYSType
  buf : Text
  deriving DecidableEq, Repr

def isBlankChar (c : Char) : Bool := c == ' ' || c == '\t' || c == '\n'

/-- The label `checkeq`: `buf` is just after the operator. -/
def checkeq (op : Binop) : Text → Token × Text
  | '=' :: buf => (.binopAss op, buf)
  | buf => (.binop op, buf)

/-- After `>`. -/
def yygt : Text → Token × Text
  | '=' :: buf => (.binop .ge, buf)
  | '>' :: buf => checkeq .rshift buf
  | buf => (.binop .gt, buf)

/-- After `<`. -/
def yylt : Text → Token × Text
  | '=' :: buf => (.binop .le, buf)
  | '<' :: buf => checkeq .lshift buf
  | buf => (.binop .lt, buf)

/-- After `|` (or `&`): the same character again makes `double`. -/
def yydouble (c : Char) (double : Token) (op : Binop) : Text → Token × Text
  | [] => checkeq op []
  | d :: buf => if d = c then (double, buf) else checkeq op (d :: buf)

/-- After `=` (or `!`): a second `=` makes `withEq`. -/
def yyeq (withEq alone : Token) : Text → Token × Text
  | '=' :: buf => (withEq, buf)
  | buf => (alone, buf)

/-- The operator that starts with the character `c`, which `buf` follows; `none`
where the switch takes its default. -/
def yyop (c : Char) (buf : Text) : Option (Token × Text) :=
  match c with
  | '=' => some (yyeq (.binop .eq) .ass buf)
  | '>' => some (yygt buf)
  | '<' => some (yylt buf)
  | '|' => some (yydouble '|' .or .bor buf)
  | '&' => some (yydouble '&' .and .band buf)
  | '!' => some (yyeq (.binop .ne) .not buf)
  | '(' => some (.lparen, buf)
  | ')' => some (.rparen, buf)
  | '*' => some (checkeq .mul buf)
  | '/' => some (checkeq .div buf)
  | '%' => some (checkeq .rem buf)
  | '+' => some (checkeq .add buf)
  | '-' => some (checkeq .sub buf)
  | '~' => some (.bnot, buf)
  | '^' => some (checkeq .bxor buf)
  | '?' => some (.qmark, buf)
  | ':' => some (.colon, buf)
  | _ => none

/-- `yylex`, from the current `yylval` and `arith_buf`. A bad character leaves
`arith_buf` where it was; the end of the string stays the end. -/
def yylex (yylval : YYSType) (arithBuf : Text) : Lexed :=
  match arithBuf.dropWhile isBlankChar with
  | [] => ⟨.eof, yylval, []⟩
  | c :: buf =>
    if isDigit c then
      let r := strtoimax (c :: buf) 0
      ⟨.num, .val r.val, r.endptr⟩
    else if isName c then
      ⟨.var, .name (c :: buf.takeWhile isInName), buf.dropWhile isInName⟩
    else
      match yyop c buf with
      | some (token, buf) => ⟨token, yylval, buf⟩
      | none => ⟨.bad, yylval, arithBuf⟩

end Bootsh.Arith
