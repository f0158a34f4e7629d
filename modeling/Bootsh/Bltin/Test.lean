import Bootsh.MyString

/-!
The builtin `test` of `bltin/test.c`, as built with `faccessat` and `st_mtim`.
-/
namespace Bootsh.Test

/-- `enum token` -/
inductive Token where
  | eoi | filrd | filwr | filex | filexist | filreg | fildir | filcdev | filbdev | filfifo
  | filsock | filsym | filgz | filtt | filsuid | filsgid | filstck | filnt | filot | fileq
  | filuid | filgid | strez | strnz | streq | strne | strlt | strgt | inteq | intne | intge
  | intgt | intle | intlt | unot | band | bor | lparen | rparen | operand
  deriving DecidableEq, Repr

/-- `enum token_types` -/
inductive TokenType where
  | unop | binop | bunop | bbinop | paren
  deriving DecidableEq, Repr

structure TOp where
  opText : String
  opNum : Token
  opType : TokenType
  deriving DecidableEq, Repr

def ops : List TOp :=
  [⟨"-r", .filrd, .unop⟩, ⟨"-w", .filwr, .unop⟩, ⟨"-x", .filex, .unop⟩,
    ⟨"-e", .filexist, .unop⟩, ⟨"-f", .filreg, .unop⟩, ⟨"-d", .fildir, .unop⟩,
    ⟨"-c", .filcdev, .unop⟩, ⟨"-b", .filbdev, .unop⟩, ⟨"-p", .filfifo, .unop⟩,
    ⟨"-u", .filsuid, .unop⟩, ⟨"-g", .filsgid, .unop⟩, ⟨"-k", .filstck, .unop⟩,
    ⟨"-s", .filgz, .unop⟩, ⟨"-t", .filtt, .unop⟩, ⟨"-z", .strez, .unop⟩,
    ⟨"-n", .strnz, .unop⟩, ⟨"-h", .filsym, .unop⟩, ⟨"-O", .filuid, .unop⟩,
    ⟨"-G", .filgid, .unop⟩, ⟨"-L", .filsym, .unop⟩, ⟨"-S", .filsock, .unop⟩,
    ⟨"=", .streq, .binop⟩, ⟨"!=", .strne, .binop⟩, ⟨"<", .strlt, .binop⟩,
    ⟨">", .strgt, .binop⟩, ⟨"-eq", .inteq, .binop⟩, ⟨"-ne", .intne, .binop⟩,
    ⟨"-ge", .intge, .binop⟩, ⟨"-gt", .intgt, .binop⟩, ⟨"-le", .intle, .binop⟩,
    ⟨"-lt", .intlt, .binop⟩, ⟨"-nt", .filnt, .binop⟩, ⟨"-ot", .filot, .binop⟩,
    ⟨"-ef", .fileq, .binop⟩, ⟨"!", .unot, .bunop⟩, ⟨"-a", .band, .bbinop⟩,
    ⟨"-o", .bor, .bbinop⟩, ⟨"(", .lparen, .paren⟩, ⟨")", .rparen, .paren⟩]

def getop (s : Text) : Option TOp := ops.find? fun op => decide (op.opText.toList = s)

/-! ### Files -/

inductive FileKind where
  | reg | dir | chr | blk | fifo | sock | lnk
  deriving DecidableEq, Repr

/-- What the primaries look at of a `struct stat64`. -/
structure Stat64 where
  kind : FileKind
  setuid : Bool
  setgid : Bool
  sticky : Bool
  size : ℕ
  uid : ℕ
  gid : ℕ
  mtime : ℤ × ℤ
  dev : ℕ
  ino : ℕ
  deriving DecidableEq, Repr

inductive AccessMode where
  | rOk | wOk | xOk
  deriving DecidableEq, Repr

/-- The system calls of `test`: `stat64`, `lstat64` and `faccessat` on a name, `isatty` on an
`int`, and the effective ids. -/
structure World where
  stat64 : Text → Option Stat64
  lstat64 : Text → Option Stat64
  faccessat : Text → AccessMode → Bool
  isatty : BitVec 32 → Bool
  euid : ℕ
  egid : ℕ

/-- How `testcmd` ends without a result: with the text given to `error`, or by reading a word
behind the last one of `argv`. -/
inductive Stop where
  | error (msg : Text)
  | outside
  | fuel
  deriving DecidableEq, Repr

def getn (s : Text) : Except Stop IntMax :=
  match atomax s 10 with
  | .ok n => .ok n
  | .error msg => .error (.error msg)

/-- `strcmp(s, t) < 0` -/
def strLt : Text → Text → Bool
  | _, [] => false
  | [], _ :: _ => true
  | c :: s, d :: t => c.toNat < d.toNat || c == d && strLt s t

def filstat (w : World) (nm : Text) (mode : Token) : Bool :=
  match if mode = .filsym then w.lstat64 nm else w.stat64 nm with
  | none => false
  | some s => match mode with
    | .filexist => true
    | .filreg => s.kind == .reg
    | .fildir => s.kind == .dir
    | .filcdev => s.kind == .chr
    | .filbdev => s.kind == .blk
    | .filfifo => s.kind == .fifo
    | .filsock => s.kind == .sock
    | .filsym => s.kind == .lnk
    | .filsuid => s.setuid
    | .filsgid => s.setgid
    | .filstck => s.sticky
    | .filgz => s.size != 0
    | .filuid => s.uid == w.euid
    | .filgid => s.gid == w.egid
    | _ => true

/-- The switch of `primary`. -/
def unary (w : World) (n : Token) (s : Text) : Except Stop Bool :=
  match n with
  | .strez => .ok (s.length == 0)
  | .strnz => .ok (s.length != 0)
  | .filtt => do
    let fd ← getn s
    return w.isatty (fd.truncate 32)
  | .filrd => .ok (w.faccessat s .rOk)
  | .filwr => .ok (w.faccessat s .wOk)
  | .filex => .ok (w.faccessat s .xOk)
  | n => .ok (filstat w s n)

def fileCmp (w : World) (rel : Stat64 → Stat64 → Bool) (f1 f2 : Text) : Bool :=
  match w.stat64 f1, w.stat64 f2 with
  | some b1, some b2 => rel b1 b2
  | _, _ => false

def newerf (w : World) : Text → Text → Bool :=
  fileCmp w fun b1 b2 => decide (b1.mtime.1 > b2.mtime.1) ||
    (decide (b1.mtime.1 = b2.mtime.1) && decide (b1.mtime.2 > b2.mtime.2))

def olderf (w : World) : Text → Text → Bool :=
  fileCmp w fun b1 b2 => decide (b1.mtime.1 < b2.mtime.1) ||
    (decide (b1.mtime.1 = b2.mtime.1) && decide (b1.mtime.2 < b2.mtime.2))

def equalf (w : World) : Text → Text → Bool :=
  fileCmp w fun b1 b2 => b1.dev == b2.dev && b1.ino == b2.ino

/-- `getn` of both operands. -/
def intCmp (rel : ℤ → ℤ → Bool) (opnd1 opnd2 : Text) : Except Stop Bool := do
  let n ← getn opnd1
  let m ← getn opnd2
  return rel n.toInt m.toInt

/-- The switch of `binop`. -/
def binary (w : World) (opnd1 : Text) (n : Token) (opnd2 : Text) : Except Stop Bool :=
  match n with
  | .strne => .ok (opnd1 != opnd2)
  | .strlt => .ok (strLt opnd1 opnd2)
  | .strgt => .ok (strLt opnd2 opnd1)
  | .inteq => intCmp (fun n m => n == m) opnd1 opnd2
  | .intne => intCmp (fun n m => n != m) opnd1 opnd2
  | .intge => intCmp (fun n m => decide (n ≥ m)) opnd1 opnd2
  | .intgt => intCmp (fun n m => decide (n > m)) opnd1 opnd2
  | .intle => intCmp (fun n m => decide (n ≤ m)) opnd1 opnd2
  | .intlt => intCmp (fun n m => decide (n < m)) opnd1 opnd2
  | .filnt => .ok (newerf w opnd1 opnd2)
  | .filot => .ok (olderf w opnd1 opnd2)
  | .fileq => .ok (equalf w opnd1 opnd2)
  | _ => .ok (opnd1 == opnd2)

/-! ### The parser -/

/-- `argv` with its NULLs. -/
abbrev Argv := List (Option Text)

def Argv.word (argv : Argv) (i : ℕ) : Except Stop (Option Text) :=
  match argv[i]? with
  | some s => .ok s
  | none => .error .outside

def isoperand (argv : Argv) (tp : ℕ) : Except Stop Bool := do
  match ← argv.word (tp + 1) with
  | none => return true
  | some s => match ← argv.word (tp + 2) with
    | none => return false
    | some _ => return (getop s).any (·.opType == .binop)

/-- `t_lex`: the token and the new `t_wp_op`. -/
def tLex (argv : Argv) (tp : ℕ) : Except Stop (Token × Option TOp) := do
  match ← argv.word tp with
  | none => return (.eoi, none)
  | some s => match getop s with
    | none => return (.operand, none)
    | some op =>
      let operand ← if op.opType = .unop then isoperand argv tp
        else if op.opNum = .lparen then (·.isNone) <$> argv.word (tp + 1)
        else pure false
      if operand then return (.operand, none) else return (op.opNum, some op)

/-- `t_wp` and `t_wp_op`. -/
structure State where
  wp : ℕ
  op : Option TOp
  deriving DecidableEq, Repr

/-- `error`, as `syntax` calls it. -/
def syntaxError (op : Option Text) (msg : String) : Stop :=
  match op with
  | some (c :: s) => .error ((c :: s) ++ ": ".toList ++ msg.toList)
  | _ => .error msg.toList

/-- `binop`, where `t_wp_op` is known to be a binary operator. -/
def binop (w : World) (argv : Argv) (st : State) : Except Stop (Bool × State) := do
  let opnd1 ← argv.word st.wp
  let (_, op) ← tLex argv (st.wp + 1)
  match op with
  | none => .error .outside
  | some op => match ← argv.word (st.wp + 2) with
    | none => .error (syntaxError (some op.opText.toList) "argument expected")
    | some opnd2 =>
      let r ← binary w (opnd1.getD []) op.opNum opnd2
      return (r, ⟨st.wp + 2, some op⟩)

mutual

def oexpr (w : World) (argv : Argv) :
    ℕ → Bool → Token → State → Except Stop (Bool × State)
  | 0, _, _, _ => .error .fuel
  | fuel + 1, res, n, st => do
    let (r, st) ← aexpr w argv fuel true n st
    let res := res || r
    let (n, op) ← tLex argv (st.wp + 1)
    if n ≠ .bor then return (res, ⟨st.wp, op⟩)
    else
      let (n, op) ← tLex argv (st.wp + 2)
      oexpr w argv fuel res n ⟨st.wp + 2, op⟩

def aexpr (w : World) (argv : Argv) :
    ℕ → Bool → Token → State → Except Stop (Bool × State)
  | 0, _, _, _ => .error .fuel
  | fuel + 1, res, n, st => do
    let (r, st) ← nexpr w argv fuel n st
    let res := res && r
    let (n, op) ← tLex argv (st.wp + 1)
    if n ≠ .band then return (res, ⟨st.wp, op⟩)
    else
      let (n, op) ← tLex argv (st.wp + 2)
      aexpr w argv fuel res n ⟨st.wp + 2, op⟩

def nexpr (w : World) (argv : Argv) : ℕ → Token → State → Except Stop (Bool × State)
  | 0, _, _ => .error .fuel
  | fuel + 1, n, st => do
    if n ≠ .unot then primary w argv fuel n st
    else
      let (n, op) ← tLex argv (st.wp + 1)
      let (r, st) ← nexpr w argv fuel n ⟨if n ≠ .eoi then st.wp + 1 else st.wp, op⟩
      return (!r, st)

def primary (w : World) (argv : Argv) : ℕ → Token → State → Except Stop (Bool × State)
  | 0, _, _ => .error .fuel
  | fuel + 1, n, st => do
    if n = .eoi then return (false, st)
    else if n = .lparen then
      let (nn, op) ← tLex argv (st.wp + 1)
      if nn = .rparen then return (false, ⟨st.wp + 1, op⟩)
      else
        let (res, st) ← oexpr w argv fuel false nn ⟨st.wp + 1, op⟩
        let (n, op) ← tLex argv (st.wp + 1)
        if n ≠ .rparen then .error (syntaxError none "closing paren expected")
        else return (res, ⟨st.wp + 1, op⟩)
    else match st.op with
      | some ⟨opText, _, .unop⟩ => match ← argv.word (st.wp + 1) with
        | none => .error (syntaxError (some opText.toList) "argument expected")
        | some s =>
          let r ← unary w n s
          return (r, { st with wp := st.wp + 1 })
      | _ =>
        let (_, op) ← tLex argv (st.wp + 1)
        match op with
        | some ⟨_, _, .binop⟩ => binop w argv ⟨st.wp, op⟩
        | _ =>
          let s ← argv.word st.wp
          return (decide ((s.getD []).length > 0), ⟨st.wp, op⟩)

end

/-! ### The command -/

/-- Enough for every expression in `argv`. -/
def testFuel (argv : Argv) : ℕ := 4 * argv.length + 8

/-- The label `eval`. The exit status is 1 where `res` differs from the value. -/
def evalExpr (w : World) (argv : Argv) (i : ℕ) (res : Bool) (n : Token) (op : Option TOp) :
    Except Stop Bool := do
  let (r, st) ← oexpr w argv (testFuel argv) false n ⟨i, op⟩
  match ← argv.word st.wp with
  | none => return res ^^ r
  | some s => match ← argv.word (st.wp + 1) with
    | none => return res ^^ r
    | some _ => .error (syntaxError (some s) "unexpected operator")

/-- From `n = t_lex(argv)` on. -/
def lexAndEval (w : World) (argv : Argv) (i : ℕ) (res : Bool) : Except Stop Bool := do
  let (n, op) ← tLex argv i
  evalExpr w argv i res n op

/-- From the label `recheck` on, where `argc` words at `i` are left. -/
def recheck (w : World) (argv : Argv) (i argc : ℕ) (res : Bool) : Except Stop Bool :=
  match argc with
  | 0 => .ok res
  | argc + 1 => do
    let second ← if argc + 1 = 3 then argv.word (i + 1) else pure none
    if ((second.bind getop).any (·.opType == .binop)) then evalExpr w argv i res .operand none
    else if argc + 1 = 3 ∨ argc + 1 = 4 then
      let first ← argv.word i
      let last ← argv.word (i + argc)
      if first = some ['('] ∧ last = some [')'] then
        lexAndEval w (argv.set (i + argc) none) (i + 1) res
      else if first = some ['!'] then recheck w argv (i + 1) argc false
      else lexAndEval w argv i res
    else lexAndEval w argv i res

/-- `testcmd`: its exit status is 1 where the result is `true`. -/
def testcmd (w : World) (argv : List Text) : Except Stop Bool :=
  let words : Argv := argv.map some ++ [none]
  if ((argv.head?.getD []).head? = some '[') then
    match argv.getLast? with
    | some (']' :: _) => recheck w (words.set (argv.length - 1) none) 1 (argv.length - 2) true
    | _ => .error (.error "missing ]".toList)
  else recheck w words 1 (argv.length - 1) true

end Bootsh.Test
