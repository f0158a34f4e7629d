import Bootsh.Alias

/-!
The input routines of `input.c`, as built with `SMALL`. A `parsefile` reads from
a string or a file descriptor; strings pushed on it are read first.
-/
namespace Bootsh

/-- A character that `pgetc` returns, or `PEOF`. -/
abbrev Chr := Option Char

/-- The pointer `nextc` into a buffer with `nleft` characters after it. -/
structure Cursor where
  before : Text
  after : Text
  deriving DecidableEq, Repr

/-- `nextc[-1]` -/
def Cursor.prev (nextc : Cursor) : Option Char := nextc.before.head?

structure StrPush where
  prevstring : Cursor
  ap : Option Text
  spfree : List (Option Text)
  lastc : Chr × Chr
  unget : ℕ
  deriving DecidableEq, Repr

/-- Where a `parsefile` gets its characters: a string has no buffer to refill; for
a file, what the calls of `read` return. The empty text is the end of the file
or an error, and every call after the last one returns it too. -/
inductive Source where
  | string
  | file (reads : List Text)
  deriving DecidableEq, Repr

/-- `spfree` lists the aliases of the strings that are to be freed. -/
structure ParseFile where
  linno : ℕ
  src : Source
  nextc : Cursor
  strpush : List StrPush
  spfree : List (Option Text)
  lastc : Chr × Chr
  unget : ℕ
  deriving DecidableEq, Repr

/-- The bits of `checkkwd`. -/
structure CheckKwd where
  chkalias : Bool
  chkkwd : Bool
  chknl : Bool
  chkeofmark : Bool
  deriving DecidableEq, Repr

structure Input where
  parsefile : ParseFile
  prev : List ParseFile
  atab : List Alias
  checkkwd : CheckKwd
  vflag : Bool
  out2 : Text
  deriving DecidableEq, Repr

/-! ### Pushed strings -/

/-- One string of the list that `freestrings` walks. -/
def freestring (atab : List Alias) : Option Text → List Alias
  | none => atab
  | some name =>
    let atab := modifyAlias (fun ap => { ap with inUse := false }) name atab
    if isDead name atab then unalias name atab else atab

def freestrings (st : Input) : Input :=
  { st with
    atab := st.parsefile.spfree.foldl freestring st.atab
    parsefile := { st.parsefile with spfree := [] } }

/-- `pushstring`, where `ap` is the name of the alias `s` comes from. -/
def pushstring (s : Text) (ap : Option Text) (st : Input) : Input :=
  let pf := st.parsefile
  let sp : StrPush := ⟨pf.nextc, ap, pf.spfree, pf.lastc, pf.unget⟩
  { st with
    parsefile := { pf with
      nextc := ⟨[], s⟩, strpush := sp :: pf.strpush, spfree := [], unget := 0 }
    atab := match ap with
      | none => st.atab
      | some name => modifyAlias (fun ap => { ap with inUse := true }) name st.atab }

/-- `popstring` with `sp` the string on top of the stack and `strpush` those below. -/
def popstring (sp : StrPush) (strpush : List StrPush) (st : Input) : Input :=
  let pf := st.parsefile
  { st with
    parsefile := { pf with
      nextc := sp.prevstring, strpush, spfree := sp.ap :: sp.spfree, lastc := sp.lastc,
      unget := sp.unget }
    checkkwd := { st.checkkwd with chkalias := st.checkkwd.chkalias ||
      (sp.ap.isSome && (pf.nextc.prev == some ' ' || pf.nextc.prev == some '\t')) } }

/-! ### Reading -/

/-- `preadfd`, again while only nul characters have been read. -/
def readNonNul : List Text → Text × List Text
  | [] => ([], [])
  | nr :: reads =>
    if nr = [] then ([], reads)
    else match nr.filter (· ≠ '\x00') with
      | [] => readNonNul reads
      | c :: buf => (c :: buf, reads)

/-- `preadbuffer` where no string is pushed. -/
def refill (st : Input) : Chr × Input :=
  let pf := st.parsefile
  match pf.src with
  | .string => (none, st)
  | .file reads =>
    match readNonNul reads with
    | ([], reads) => (none, { st with parsefile := { pf with src := .file reads, nextc := ⟨[], []⟩ } })
    | (c :: buf, reads) =>
      (some c, { st with
        parsefile := { pf with src := .file reads, nextc := ⟨[c], buf⟩ }
        out2 := if st.vflag then st.out2 ++ c :: buf else st.out2 })

/-- `lastc[n]` -/
def lastcAt (lastc : Chr × Chr) : ℕ → Chr
  | 0 => lastc.1
  | _ => lastc.2

/-- The end of `__pgetc`: the character read is the last one. -/
def shiftLastc (r : Chr × Input) : Chr × Input :=
  let pf := r.2.parsefile
  (r.1, { r.2 with parsefile := { pf with lastc := (r.1, pf.lastc.1) } })

/-- `__pgetc`, where `strpush` are the strings on the stack. `preadbuffer` calls it
again when a string has ended, and the outer call shifts `lastc` once more. -/
def pgetcRaw : List StrPush → Input → Chr × Input
  | strpush, st =>
    let pf := st.parsefile
    if pf.unget ≠ 0 then
      (lastcAt pf.lastc (pf.unget - 1), { st with parsefile := { pf with unget := pf.unget - 1 } })
    else match pf.nextc.after with
      | c :: after =>
        shiftLastc (some c, { st with
          parsefile := { pf with nextc := ⟨c :: pf.nextc.before, after⟩ } })
      | [] => match strpush with
        | [] => shiftLastc (refill st)
        | sp :: strpush => shiftLastc (pgetcRaw strpush (popstring sp strpush st))

def pgetc (st : Input) : Chr × Input :=
  pgetcRaw st.parsefile.strpush (if st.parsefile.spfree = [] then st else freestrings st)

def pungetc (st : Input) : Input :=
  { st with parsefile := { st.parsefile with unget := st.parsefile.unget + 1 } }

/-! ### Files -/

/-- `pushfile` leaves `lastc` as `ckmalloc` returns it; nothing reads it before a
character has been. -/
def pushfile (src : Source) (nextc : Cursor) (st : Input) : Input :=
  { st with
    parsefile := ⟨1, src, nextc, [], [], (none, none), 0⟩
    prev := st.parsefile :: st.prev }

/-- `setinputfile` with `INPUT_PUSH_FILE`, the file having been opened. -/
def setinputfile (reads : List Text) : Input → Input := pushfile (.file reads) ⟨[], []⟩

def setinputstring (s : Text) : Input → Input := pushfile .string ⟨[], s⟩

/-- Pop and free the strings of the file that is left. -/
def popstrings : List StrPush → Input → Input
  | [], st => st
  | sp :: strpush, st => popstrings strpush (freestrings (popstring sp strpush st))

def popfile (st : Input) : Input :=
  match st.prev with
  | [] => st
  | pf :: prev =>
    { popstrings st.parsefile.strpush (freestrings st) with parsefile := pf, prev }

end Bootsh
