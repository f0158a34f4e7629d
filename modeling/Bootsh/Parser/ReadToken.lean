import Bootsh.Parser.Syntax

/-!
`readtoken1` of `parser.c`, with the subroutines it jumps to: words and
here-documents are read into the text that the expansion routines take apart.
Prompting is left out. Loops are bounded by fuel.
-/
namespace Bootsh

inductive ParseStop where
  | fuel
  | synerror (msg : String) (linno : ℕ)
  deriving DecidableEq, Repr

/-- `quoted` tells `NHERE` from `NXHERE`. -/
structure Heredoc where
  quoted : Bool
  eofmark : Text
  striptabs : Bool
  deriving DecidableEq, Repr

structure Parser where
  input : Input
  heredoclist : List Heredoc
  tokpushback : Bool
  deriving DecidableEq, Repr

abbrev Parse := Except ParseStop

def synerror {α : Type} (msg : String) (st : Parser) : Parse α :=
  .error (.synerror msg st.input.parsefile.linno)

def Parser.pgetc (st : Parser) : Chr × Parser :=
  ((Bootsh.pgetc st.input).1, { st with input := (Bootsh.pgetc st.input).2 })

def Parser.pungetc (st : Parser) : Parser := { st with input := Bootsh.pungetc st.input }

def Parser.pushstring (s : Text) (st : Parser) : Parser :=
  { st with input := Bootsh.pushstring s none st.input }

def Parser.setinputstring (s : Text) (st : Parser) : Parser :=
  { st with input := Bootsh.setinputstring s st.input }

def Parser.popfile (st : Parser) : Parser := { st with input := Bootsh.popfile st.input }

/-- `nlprompt` and `nlnoprompt` -/
def Parser.newline (st : Parser) : Parser :=
  { st with input := { st.input with
      parsefile := { st.input.parsefile with linno := st.input.parsefile.linno + 1 } } }

def pgetcEatbnl : ℕ → Parser → Parse (Chr × Parser)
  | 0, _ => .error .fuel
  | fuel + 1, st =>
    let (c, st) := st.pgetc
    if c = some '\\' then
      let (c', st) := st.pgetc
      if c' ≠ some '\n' then .ok (c, st.pungetc) else pgetcEatbnl fuel st.newline
    else .ok (c, st)

structure SynStack where
  syn : Syntax
  innerdq : Bool
  varpushed : ℕ
  dblquote : Bool
  varnest : ℕ
  parenlevel : ℕ
  dqvarnest : ℕ
  deriving DecidableEq, Repr

/-- A new entry of the stack, cleared. -/
def SynStack.new (syn : Syntax) : SynStack := ⟨syn, false, 0, false, 0, 0, 0⟩

def pgetcTop (fuel : ℕ) (synstack : SynStack) (st : Parser) :
    Parse (Chr × Parser) :=
  if synstack.syn = .sq then .ok st.pgetc else pgetcEatbnl fuel st

/-- `NULL`, `FAKEEOFMARK` or a delimiter. -/
inductive Eofmark where
  | null
  | fake
  | mark (s : Text)
  deriving DecidableEq, Repr

/-- The locals of `readtoken1`; `synstack` is on top of `below`. -/
structure Locals (β : Type) where
  c : Chr
  out : Text
  quotef : ℕ
  bqlist : List β
  synstack : SynStack
  below : List SynStack
  deriving DecidableEq, Repr

variable {β : Type}

/-- `USTPUTC` -/
def Locals.put (s : Text) (tok : Locals β) : Locals β := { tok with out := tok.out ++ s }

/-! ### The end of a here-document -/

def skipTabs : ℕ → Chr → Parser → Parse (Chr × Parser)
  | 0, _, _ => .error .fuel
  | fuel + 1, c, st => if c = some '\t' then skipTabs fuel st.pgetc.1 st.pgetc.2 else .ok (c, st)

/-- The loop of `checkend` that compares the input with the delimiter. The result
is the characters read, the last one apart, that one, and whether the whole
delimiter has been read. -/
def matchMark : Text → Text → Chr → Parser → (Text × Chr × Bool) × Parser
  | [], read, c, st => ((read, c, true), st)
  | m :: mark, read, c, st =>
    if c ≠ some m then ((read, c, false), st)
    else matchMark mark (read ++ [m]) st.pgetc.1 st.pgetc.2

def isNegativeChr : Chr → Bool
  | none => true
  | some c => isNegative c

/-- `more_heredoc`: what has been read after the first character is pushed back. -/
def moreHeredoc (read : Text) (c : Chr) (st : Parser) : Chr × Parser :=
  match read with
  | [] => (c, st)
  | c₀ :: read =>
    let len := (read ++ [c.byte]).length - (if isNegativeChr c then 1 else 0)
    (some c₀, if len = 0 then st else st.pushstring ((read ++ [c.byte]).take len))

def checkend (fuel : ℕ) (eofmark : Eofmark) (striptabs : Bool) (c : Chr) (st : Parser) :
    Parse (Chr × Parser) :=
  match eofmark with
  | .mark s => do
    let (c, st) ← (if striptabs then skipTabs fuel c st else .ok (c, st))
    let ((read, c, found), st) := matchMark s [] c st
    if found ∧ (c = some '\n' ∨ c = none) then return (none, st.newline)
    else return moreHeredoc read c st
  | _ => return (c, st)

/-! ### Substitutions -/

/-- The routines of the parser that read the commands of a substitution: `list(2)`,
`readtoken` with `synexpect(TRP)`, and `parseheredoc`. -/
structure Callees (β : Type) where
  list : Parser → Parse (β × Parser)
  expectTRP : Parser → Parse Parser
  parseheredoc : Parser → Parse Parser

/-- The text between backquotes. -/
def readBackquoted : ℕ → Bool → Text → Parser → Parse (Text × Parser)
  | 0, _, _, _ => .error .fuel
  | fuel + 1, dblquote, pout, st => do
    let (pc, st) ← pgetcEatbnl fuel st
    match pc with
    | none => synerror "EOF in backquote substitution" st
    | some '`' => return (pout, st)
    | some '\\' =>
      let (pc, st) := st.pgetc
      let keep := pc ≠ some '\\' ∧ pc ≠ some '`' ∧ pc ≠ some '$' ∧ (dblquote = false ∨ pc ≠ some '"')
      readBackquoted fuel dblquote
        ((if keep then pout ++ ['\\'] else pout) ++ [Chr.byte pc]) st
    | some '\n' => readBackquoted fuel dblquote (pout ++ ['\n']) st.newline
    | some pc => readBackquoted fuel dblquote (pout ++ [pc]) st

def parsebackq (callees : Callees β) (fuel : ℕ) (oldstyle : Bool) (tok : Locals β) (st : Parser) :
    Parse (Locals β × Parser) := do
  let tok := tok.put [CTLBACKQ]
  let st ← (if oldstyle then do
      let (pstr, st) ← readBackquoted fuel tok.synstack.dblquote [] st
      return st.setinputstring pstr
    else return st)
  let saveheredoclist := st.heredoclist
  let (n, st) ← callees.list { st with heredoclist := [] }
  let st ← (if oldstyle then return st else do
      let st ← callees.expectTRP st
      return st.setinputstring [])
  let st ← callees.parseheredoc st
  let st := { st with heredoclist := saveheredoclist }.popfile
  return ({ tok with bqlist := tok.bqlist ++ [n] },
    if oldstyle then { st with tokpushback := false } else st)

def parsearith (tok : Locals β) : Locals β :=
  { tok.put [CTLARI] with
    synstack := { SynStack.new .ari with dblquote := true }
    below := tok.synstack :: tok.below }

/-- The loops of `varname`: store characters as long as `p` holds of the next one. -/
def storeWhile (p : Chr → Bool) : ℕ → Text → Chr → Parser → Parse ((Text × Chr) × Parser)
  | 0, _, _, _ => .error .fuel
  | fuel + 1, name, c, st => do
    let name := name ++ [Chr.byte c]
    let (c, st) ← pgetcEatbnl fuel st
    if p c then storeWhile p fuel name c st else return ((name, c), st)

/-- A name or a positional parameter. -/
def readName (fuel subtype : ℕ) (c : Chr) (st : Parser) : Parse ((Text × Chr) × Parser) :=
  if c.is isName then storeWhile (Chr.is isInName) fuel [] c st
  else storeWhile (fun c => (subtype = 0 ∨ VSLENGTH ≤ subtype) ∧ c.is isDigit) fuel [] c st

/-- What `varname` has read: the subtype so far, the name and the next character.
`badsub` is set on a jump to that label. -/
structure VarName where
  subtype : ℕ
  name : Text
  c : Chr
  badsub : Bool
  deriving DecidableEq, Repr

/-- A special parameter, or the length of a parameter. -/
def readSpecial (fuel subtype : ℕ) (cc : Chr) (st : Parser) : Parse (VarName × Parser) := do
  let finish (subtype : ℕ) (cc c : Chr) : VarName :=
    if ¬ cc.is isSpecial then ⟨if subtype = VSLENGTH then 0 else subtype, [], c, true⟩
    else ⟨subtype, [Chr.byte cc], c, false⟩
  let (c, st) ← pgetcEatbnl fuel st
  if subtype = 0 ∧ cc = some '#' then
    if c.is isInName then
      let ((name, c), st) ← readName fuel VSLENGTH c st
      return (⟨VSLENGTH, name, c, false⟩, st)
    else
      let cc := c
      let (c, st) ← pgetcEatbnl fuel st
      if cc = some '\x7d' ∨ c ≠ some '\x7d' then return (finish 0 (some '#') cc, st.pungetc)
      else return (finish VSLENGTH cc c, st)
  else return (finish subtype cc c, st)

def readVarname (fuel subtype : ℕ) (c : Chr) (st : Parser) : Parse (VarName × Parser) :=
  if c.is isName ∨ c.is isDigit then do
    let ((name, c), st) ← readName fuel subtype c st
    return (⟨subtype, name, c, false⟩, st)
  else if c ≠ some '\x7d' then readSpecial fuel subtype c st
  else return (⟨subtype, [], c, true⟩, st)

/-- `strchr(types, c) - types + VSNORMAL`, or 0. -/
def typesSubtype (c : Chr) : ℕ :=
  match ['\x7d', '-', '+', '?', '='].findIdx? fun t => c = some t with
  | some i => i + VSNORMAL
  | none => 0

/-- The operator after the name, and whether it is one that trims. -/
def readSubtype (fuel : ℕ) (v : VarName) (st : Parser) : Parse ((ℕ × Bool) × Parser) :=
  if v.badsub then return ((v.subtype, false), st.pungetc)
  else if v.subtype = 0 then
    if v.c = some ':' then do
      let (c, st) ← pgetcEatbnl fuel st
      return ((VSNUL ||| typesSubtype c, false), st)
    else if v.c = some '%' ∨ v.c = some '#' then do
      let subtype := if v.c = some '#' then VSTRIMLEFT else VSTRIMRIGHT
      let (c, st) ← pgetcEatbnl fuel st
      if c = v.c then return ((subtype + 1, true), st) else return ((subtype, true), st.pungetc)
    else return ((typesSubtype v.c, false), st)
  else return ((if v.subtype = VSLENGTH ∧ v.c ≠ some '\x7d' then 0 else v.subtype, false), st.pungetc)

/-- The end of `parsesub`: the parameter is stored and the syntax stack adjusted. -/
def storeVar (subtype : ℕ) (trim : Bool) (name : Text) (tok : Locals β) : Locals β :=
  let newsyn := if trim then .base else tok.synstack.syn
  let newsyn := if newsyn = .ari then .dq else newsyn
  let tok := tok.put (CTLVAR :: Char.ofNat (subtype ||| VSBIT) :: name ++ ['='])
  let tok : Locals β :=
    if (newsyn ≠ tok.synstack.syn ∨ tok.synstack.innerdq) ∧ subtype ≠ VSNORMAL then
      { tok with
        synstack := { SynStack.new newsyn with varpushed := 1, dblquote := newsyn ≠ .base }
        below := tok.synstack :: tok.below }
    else tok
  let top := tok.synstack
  if subtype ≠ VSNORMAL then
    { tok with synstack := { top with
        varnest := top.varnest + 1
        dqvarnest := if top.dblquote then top.dqvarnest + 1 else top.dqvarnest } }
  else tok

def parsesub (callees : Callees β) (fuel : ℕ) (tok : Locals β) (st : Parser) :
    Parse (Locals β × Parser) := do
  let (c, st) ← pgetcEatbnl fuel st
  if st.input.checkkwd.chkeofmark ∨
      (c ≠ some '(' ∧ c ≠ some '\x7b' ∧ ¬ c.is isName ∧ ¬ c.is isSpecial) then
    return (tok.put ['$'], st.pungetc)
  else if c = some '(' then
    let (c, st) ← pgetcEatbnl fuel st
    if c = some '(' then return (parsearith tok, st)
    else parsebackq callees fuel false tok st.pungetc
  else
    let ((c, subtype), st) ← (if c = some '\x7b' then do
        let (c, st) ← pgetcEatbnl fuel st
        return ((c, 0), st)
      else return ((c, VSNORMAL), st) : Parse ((Chr × ℕ) × Parser))
    let (v, st) ← readVarname fuel subtype c st
    let ((subtype, trim), st) ← readSubtype fuel v st
    return (storeVar subtype trim v.name tok, st)

/-! ### Words and here-documents -/

/-- Where the loop goes on: at the next character, at the next line, or at `endword`. -/
inductive Next where
  | char
  | line
  | endword
  deriving DecidableEq, Repr

/-- `quotemark` -/
def quotemark (eofmark : Eofmark) (tok : Locals β) : Locals β :=
  if eofmark = .null then tok.put [CTLQUOTEMARK] else tok

/-- `toggledq` -/
def toggledq (eofmark : Eofmark) (tok : Locals β) : Locals β :=
  quotemark eofmark
    (if tok.synstack.varnest ≠ 0 then
      { tok with synstack := { tok.synstack with innerdq := !tok.synstack.innerdq } }
    else tok)

/-- A character after a backslash, at a class `CBACK`. -/
def storeBack (eofmark : Eofmark) (c : Char) (tok : Locals β) : Locals β :=
  let top := tok.synstack
  let keep := top.dblquote = true ∧ c ≠ '\\' ∧ c ≠ '`' ∧ c ≠ '$' ∧
    (c ≠ '"' ∨ (eofmark ≠ .null ∧ top.varnest = 0)) ∧ (c ≠ '\x7d' ∨ top.varnest = 0)
  let tok := if keep then tok.put [CTLESC, '\\'] else tok
  { tok.put [CTLESC, c] with quotef := tok.quotef + 1 }

/-- A class `CENDVAR`. -/
def storeEndvar (tok : Locals β) : Locals β :=
  let top := tok.synstack
  if top.innerdq = false ∧ 0 < top.varnest then
    let top := { top with varnest := top.varnest - 1 }
    let tok : Locals β :=
      match tok.below with
      | below :: rest =>
        if top.varnest = 0 ∧ top.varpushed ≠ 0 then { tok with synstack := below, below := rest }
        else { tok with synstack := { top with dqvarnest := top.dqvarnest - 1 } }
      | [] => { tok with synstack := { top with dqvarnest := top.dqvarnest - 1 } }
    tok.put [CTLENDVAR]
  else tok.put [tok.c.byte]

/-- A class `CENDQUOTE` that does end a quotation. -/
def storeEndquote (eofmark : Eofmark) (tok : Locals β) : Locals β :=
  let tok : Locals β :=
    if tok.synstack.dqvarnest = 0 then
      { tok with synstack := { tok.synstack with syn := .base, dblquote := false } }
    else tok
  let tok := { tok with quotef := tok.quotef + 1 }
  if tok.c = some '"' then toggledq eofmark tok else quotemark eofmark tok

/-- The switch of `readtoken1` on the class of `c`. -/
def storeChar (callees : Callees β) (fuel : ℕ) (eofmark : Eofmark) (tok : Locals β) (st : Parser) :
    Parse ((Next × Locals β) × Parser) :=
  let top := tok.synstack
  let c := tok.c.byte
  match top.syn.get tok.c with
  | .cnl =>
    if top.syn = .base ∧ top.varnest = 0 then return ((.endword, tok), st)
    else return ((.line, tok.put [c]), st.newline)
  | .cword => return ((.char, tok.put [c]), st)
  | .cctl =>
    let escape := eofmark = .null ∨ top.dblquote = true ∨ top.varnest ≠ 0
    return ((.char, tok.put (if escape then [CTLESC, c] else [c])), st)
  | .cback =>
    match st.pgetc with
    | (none, st) => return ((.char, tok.put [CTLESC, '\\']), st.pungetc)
    | (some c, st) => return ((.char, storeBack eofmark c tok), st)
  | .csquote =>
    return ((.char, quotemark eofmark { tok with synstack := { top with syn := .sq } }), st)
  | .cdquote =>
    return ((.char,
      toggledq eofmark { tok with synstack := { top with syn := .dq, dblquote := true } }), st)
  | .cendquote =>
    if eofmark ≠ .null ∧ top.varnest = 0 then return ((.char, tok.put [c]), st)
    else return ((.char, storeEndquote eofmark tok), st)
  | .cvar => do
    let (tok, st) ← parsesub callees fuel tok st
    return ((.char, tok), st)
  | .cendvar => return ((.char, storeEndvar tok), st)
  | .clp =>
    return ((.char, { tok.put [c] with
      synstack := { top with parenlevel := top.parenlevel + 1 } }), st)
  | .crp =>
    if 0 < top.parenlevel then
      return ((.char, { tok.put [c] with
        synstack := { top with parenlevel := top.parenlevel - 1 } }), st)
    else do
      let (c, st) ← pgetcEatbnl fuel st
      if c = some ')' then
        match tok.below with
        | below :: rest =>
          return ((.char, { tok.put [CTLENDARI] with synstack := below, below := rest }), st)
        | [] => return ((.char, tok.put [CTLENDARI]), st)
      else return ((.char, tok.put [')']), st.pungetc)
  | .cbquote =>
    if st.input.checkkwd.chkeofmark then return ((.char, tok.put ['`']), st)
    else do
      let (tok, st) ← parsebackq callees fuel true tok st
      return ((.char, tok), st)
  | .ceof => return ((.endword, tok), st)
  | .cspcl =>
    if top.varnest = 0 then return ((.endword, tok), st)
    else return ((.char, tok.put [c]), st)

/-- The loop of `readtoken1`; `line` is set at `loop`, where a line starts. -/
def readLoop (callees : Callees β) (eofmark : Eofmark) (striptabs : Bool) :
    ℕ → Bool → Locals β → Parser → Parse (Locals β × Parser)
  | 0, _, _, _ => .error .fuel
  | fuel + 1, line, tok, st => do
    let (c, st) ← (if line then checkend fuel eofmark striptabs tok.c st else return (tok.c, st))
    let ((next, tok), st) ← storeChar callees fuel eofmark { tok with c } st
    if next = .endword then return (tok, st)
    else
      let (c, st) ← pgetcTop fuel tok.synstack st
      readLoop callees eofmark striptabs fuel (next = .line) { tok with c } st

inductive RedirType where
  | to | clobber | append | from | fromto | tofd | fromfd | here (striptabs : Bool)
  deriving DecidableEq, Repr

structure Redir where
  fd : ℕ
  type : RedirType
  deriving DecidableEq, Repr

/-- `parseredir`, where `fd` is the text before the operator. -/
def parseredir (fuel : ℕ) (fd : Text) (c : Chr) (st : Parser) : Parse (Redir × Parser) := do
  let (c', st) ← pgetcEatbnl fuel st
  let ((dflt, type), st) ← (if c = some '>' then
      if c' = some '>' then return ((1, .append), st)
      else if c' = some '|' then return ((1, .clobber), st)
      else if c' = some '&' then return ((1, .tofd), st)
      else return ((1, .to), st.pungetc)
    else if c' = some '<' then do
      let (c, st) ← pgetcEatbnl fuel st
      if c = some '-' then return ((0, .here true), st) else return ((0, .here false), st.pungetc)
    else if c' = some '&' then return ((0, .fromfd), st)
    else if c' = some '>' then return ((0, .fromto), st)
    else return ((0, .from), st.pungetc) : Parse ((ℕ × RedirType) × Parser))
  return (⟨match fd with
    | [] => dflt
    | d :: _ => d.toNat - '0'.toNat, type⟩, st)

/-- `wordtext`, `backquotelist` and `quoteflag` -/
structure Word (β : Type) where
  text : Text
  backquote : List β
  quoteflag : Bool
  deriving DecidableEq, Repr

/-- `TREDIR` with its `redirnode`, or `TWORD`. -/
inductive Token1 (β : Type) where
  | redir (node : Redir)
  | word (w : Word β)
  deriving DecidableEq, Repr

/-- The errors at `endword`. -/
def checkEndword (eofmark : Eofmark) (tok : Locals β) (st : Parser) : Parse Unit :=
  if tok.synstack.syn = .ari then synerror "Missing '))'" st
  else if tok.synstack.syn ≠ .base ∧ eofmark = .null then
    synerror "Unterminated quoted string" st
  else if tok.synstack.varnest ≠ 0 then synerror "Missing '\x7d'" st
  else return ()

def readtoken1 (callees : Callees β) (fuel : ℕ) (firstc : Chr) (syn : Syntax) (eofmark : Eofmark)
    (striptabs : Bool) (st : Parser) : Parse (Token1 β × Parser) := do
  let tok : Locals β := ⟨firstc, [], 0, [], { SynStack.new syn with dblquote := syn = .dq }, []⟩
  let (tok, st) ← readLoop callees eofmark striptabs fuel true tok st
  checkEndword eofmark tok st
  let w : Word β := ⟨tok.out, tok.bqlist, tok.quotef ≠ 0⟩
  if eofmark = .null then
    if (tok.c = some '>' ∨ tok.c = some '<') ∧ tok.quotef = 0 ∧ tok.out.length ≤ 1 ∧
        tok.out.all isDigit then do
      let (node, st) ← parseredir fuel tok.out tok.c st
      return (.redir node, st)
    else return (.word w, st.pungetc)
  else return (.word w, st)

/-- The document that one turn of the loop in `parseheredoc` reads. -/
def readHeredoc (callees : Callees β) (fuel : ℕ) (here : Heredoc) (st : Parser) :
    Parse (Word β × Parser) := do
  let (token, st) ← (if here.quoted then
      readtoken1 callees fuel st.pgetc.1 .sq (.mark here.eofmark) here.striptabs st.pgetc.2
    else do
      let (c, st) ← pgetcEatbnl fuel st
      readtoken1 callees fuel c .dq (.mark here.eofmark) here.striptabs st)
  match token with
  | .word w => return (w, st)
  | .redir _ => return (⟨[], [], false⟩, st)

/-- `parseheredoc`: the documents, in the order of `heredoclist`. -/
def parseheredoc (callees : Callees β) (fuel : ℕ) (st : Parser) : Parse (List (Word β) × Parser) :=
  go st.heredoclist { st with heredoclist := [] }
where
  go : List Heredoc → Parser → Parse (List (Word β) × Parser)
    | [], st => return ([], st)
    | here :: rest, st => do
      let (doc, st) ← readHeredoc callees fuel here st
      let (docs, st) ← go rest st
      return (doc :: docs, st)

end Bootsh
