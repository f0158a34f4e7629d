import Bootsh.CString
import Mathlib.Logic.Function.Basic

/-!
The build log of `log.c`: the file `.ninja_log`, and what it says of the outputs. An output is
its path, as in the deps log, and a path here is a string that may have a NUL in it.
-/
namespace Bootsh.Samu.BuildLog

/-- The fields of a node that the log holds. -/
structure NodeLog where
  logmtime : BitVec 64
  hash : BitVec 64
  deriving DecidableEq, Repr

def MTIME_MISSING : BitVec 64 := -2

/-- A node as `mknode` makes it. -/
def noLog : NodeLog := ⟨MTIME_MISSING, 0⟩

/-- What is seen of a string by those who look for the NUL at its end. -/
def cstr (s : Text) : Text := s.takeWhile (· ≠ '\x00')

/-! ### Printing -/

/-- `"%" PRIx64`. -/
def fmtHex (n : BitVec 64) : Text := Nat.toDigits 16 n.toNat

/-- What `logrecord` prints. -/
def logrecord (n : Text) (l : NodeLog) : Text :=
  "0\t0\t".toList ++ (fmtImax l.logmtime ++ '\t' :: (cstr n ++ '\t' :: (fmtHex l.hash ++ ['\n'])))

def logver : BitVec 32 := 5

/-- `logfmt` with `logver`. -/
def logheader : Text := "# ninja log v5\n".toList

/-! ### Reading -/

/-- A magnitude with its sign, saturated at the end of `unsigned long long`. -/
def saturateU (neg : Bool) (n : ℕ) : BitVec 64 :=
  if n < 2 ^ 64 then if neg then -BitVec.ofNat 64 n else BitVec.ofNat 64 n else BitVec.allOnes 64

/-- `strtoull`: the number and `*endptr`. -/
def strtoull (s : Text) (base : ℕ) : BitVec 64 × Text :=
  let t := s.dropWhile isSpace
  let (neg, t) := match t with
    | '-' :: u => (true, u)
    | '+' :: u => (false, u)
    | u => (false, u)
  let (base, t) := basePrefix base t
  let digits := t.takeWhile (isBaseDigit base)
  if digits = [] then (0, s)
  else (saturateU neg (magnitude base digits), t.dropWhile (isBaseDigit base))

/-- The rest of the input behind the given characters. -/
def scanLiteral (p s : Text) : Option Text :=
  if p.isPrefixOf s then some (s.drop p.length) else none

/-- `fscanf` with `logfmt`. White space in the format stands for any amount of it. -/
def scanHeader (s : Text) : Option (BitVec 32 × Text) :=
  (scanLiteral ['#'] s).bind fun s =>
    (scanLiteral "ninja".toList (s.dropWhile isSpace)).bind fun s =>
      (scanLiteral "log".toList (s.dropWhile isSpace)).bind fun s =>
        (scanLiteral ['v'] (s.dropWhile isSpace)).bind fun s =>
          let ver := strtoimax s 10
          if ver.endptr = s then none
          else some (ver.val.truncate 32, ver.endptr.dropWhile isSpace)

def isDelimiter (c : Char) : Bool := c == '\t' || c == '\n'

/-- The field and `*end`. -/
def nextfield (s : Text) : Option (Text × Text) :=
  if s = [] then none
  else some (s.takeWhile fun c => !isDelimiter c, (s.dropWhile fun c => !isDelimiter c).drop 1)

structure Table where
  node : Text → NodeLog
  nline : ℕ
  nentry : ℕ

/-- The nodes of a new graph. -/
def newTable : Table := ⟨fun _ => noLog, 0, 0⟩

section Load

-- the outputs of the edges, in the order of `alledges`
variable (outs : List Text)

/-- The part of the turn for a line from the output path on. -/
def logfields (mtime : BitVec 64) (p : Text) (t : Table) : Table :=
  match nextfield p with
  | none => t
  | some (s, p) =>
    if s ∈ outs then
      let n := t.node s
      let nentry := if n.logmtime = MTIME_MISSING then t.nentry + 1 else t.nentry
      match nextfield p with
      | none => { t with node := Function.update t.node s { n with logmtime := mtime }, nentry }
      -- a hash with something behind it is stored all the same
      | some (h, _) =>
        { t with node := Function.update t.node s ⟨mtime, (strtoull h 16).1⟩, nentry }
    else t

/-- A turn of the loop over the lines, for the string in `buf`. -/
def logline (p : Text) (t : Table) : Table :=
  match nextfield p with
  | none => t
  | some (_, p) =>
    match nextfield p with
    | none => t
    | some (_, p) =>
      match nextfield p with
      | none => t
      | some (s, p) =>
        let mtime := strtoimax s 10
        if mtime.endptr ≠ [] then t else logfields outs mtime.val p t

def BUFSIZ : ℕ := 8192

/-- `fgets`: what it stores, less the NUL, and the rest of the input. -/
def fgets (size : ℕ) (input : Text) : Option (Text × Text) :=
  if input = [] then none
  else
    let n := min (size - 1) ((input.takeWhile (· ≠ '\n')).length + 1)
    some (input.take n, input.drop n)

/-- `buf.cap` before a call of `fgets`. -/
def grow (cap len : ℕ) : ℕ :=
  if cap - len < BUFSIZ then if cap = 0 then BUFSIZ else cap * 2 else cap

/-- The turns of the loop up to one that does not read more of the line: the line, `buf.cap` and
the rest of the input. Each turn reads a character or more. -/
def readline : ℕ → ℕ → Text → Text → Option (Text × ℕ × Text)
  | 0, _, _, _ => none
  | fuel + 1, cap, buf, input =>
    (fgets (grow cap buf.length - buf.length) input).bind fun (s, rest) =>
      -- the buffer is full and its last character is not a newline
      if ((buf ++ s)[grow cap buf.length - 2]?).any fun c => c ≠ '\x00' ∧ c ≠ '\n' then
        readline fuel (grow cap buf.length) (buf ++ s) rest
      else some (buf ++ s, grow cap buf.length, rest)

/-- The loop over the lines. -/
def readlog : ℕ → ℕ → Text → Table → Table
  | 0, _, _, t => t
  | fuel + 1, cap, input, t =>
    match readline (input.length + 1) cap [] input with
    | none => t
    | some (buf, cap, rest) =>
      readlog fuel cap rest (logline outs (cstr buf) { t with nline := t.nline + 1 })

/-- The table of what is behind the header. -/
def loadlog (input : Text) : Table := readlog outs (input.length + 1) 0 input newTable

/-- Whether the log is kept as it is. -/
def Table.small (t : Table) : Prop := t.nline ≤ 100 ∨ t.nline ≤ 3 * t.nentry

instance (t : Table) : Decidable t.small := inferInstanceAs (Decidable (_ ∨ _))

/-- The part of `loginit` behind `rewrite`. -/
def rewrite (t : Table) : Text :=
  logheader ++
    if 0 < t.nentry then
      outs.flatMap fun n => if (t.node n).hash = 0 then [] else logrecord n (t.node n)
    else []

/-- What `loginit` reads of the file, and whether it keeps it. -/
def scanlog (content : Option Text) : Table × Bool :=
  match content.bind scanHeader with
  | none => (newTable, false)
  | some (ver, input) =>
    if ver ≠ logver then (newTable, false)
    else (loadlog outs input, decide (loadlog outs input).small)

/-- The nodes and the file after `loginit`. -/
def loginit (content : Option Text) : (Text → NodeLog) × Option Text :=
  let (t, keep) := scanlog outs content
  (t.node, if keep then content else some (rewrite outs t))

end Load

end Bootsh.Samu.BuildLog
