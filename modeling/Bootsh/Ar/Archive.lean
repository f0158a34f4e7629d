import Bootsh.Ar.Elf
import Bootsh.Lib.Fallible
import Bootsh.Lib.GnuAr

/-!
How `ar_main` lays out and writes an archive. Pointers into the static heap are left out, except for
the bound the heap puts on the symbol table. The files do not change while `ar` runs.
-/
namespace Bootsh.Ar

open Bytes (Order)
open GnuAr (ascii slash newline space)

/-- What `stat` and `mmap` say of a path. -/
structure File where
  isDir : Bool
  mode : ℕ
  elf : Image

def File.contents (f : File) : List UInt8 := f.elf.bytes

def pathMax : ℕ := 4096

/-- The files `ar` can name. No path as long as `PATH_MAX` names one. -/
structure Files where
  stat : List UInt8 → Option File
  short : ∀ path, pathMax ≤ path.length → stat path = none

def armag : List UInt8 := ascii "!<arch>\n"

def arfmag : List UInt8 := ascii "`\n"

/-! ### Numerals -/

/-- The loop of `FormatOctal32` and `FormatUint64`: the digits, the last one first. -/
def digitLoop (base : ℕ) : ℕ → ℕ → List UInt8
  | 0, _ => []
  | n + 1, x =>
    UInt8.ofNat (x % base + 48) :: if x / base = 0 then [] else digitLoop base n (x / base)

def formatOctal32 (x : ℕ) (z : Bool) : List UInt8 :=
  let x := x % 2 ^ 32
  (digitLoop 8 11 x ++ if x ≠ 0 ∧ z then ascii "0" else []).reverse

def formatUint64 (x : ℕ) : List UInt8 := (digitLoop 10 20 (x % 2 ^ 64)).reverse

/-! ### Analysis -/

def endswith (s suffix : List UInt8) : Bool :=
  if s.length < suffix.length then false else s.drop (s.length - suffix.length) == suffix

/-- `basename` of the C library. -/
def basename (path : List UInt8) : List UInt8 :=
  let p := (path.reverse.dropWhile (· == slash))
  if path = [] then ascii "."
  else if p = [] then ascii "/"
  else (p.takeWhile (· != slash)).reverse

/-- What is kept of an input file: `args`, `names`, `modes` and `sizes`. -/
structure Entry where
  arg : List UInt8
  name : List UInt8
  file : File

def Entry.size (e : Entry) : ℕ := e.file.contents.length

structure Analysis where
  entries : List Entry
  symnames : List ℕ
  symbols : List UInt8
  filenames : List UInt8

def Analysis.empty : Analysis := ⟨[], [], [], []⟩

/-- The name for the header and the table of long names after it. -/
def Analysis.nameFor (a : Analysis) (aname : List UInt8) : List UInt8 × List UInt8 :=
  if aname.length ≤ 16 then (aname, a.filenames)
  else (slash :: formatUint64 a.filenames.length, a.filenames ++ aname ++ [newline])

def Analysis.add (a : Analysis) (arg : List UInt8) (f : File) (names : List (List UInt8)) :
    Analysis :=
  let aname := basename (arg.take pathMax) ++ [slash]
  { entries := a.entries ++ [⟨arg, (a.nameFor aname).1, f⟩]
    symnames := a.symnames ++ names.map fun _ => a.entries.length
    symbols := a.symbols ++ names.flatMap fun s => s ++ [0]
    filenames := (a.nameFor aname).2 }

/-- Whether an argument is passed over by its name. -/
def skipped (arg : List UInt8) : Bool := endswith arg (ascii "/") || endswith arg (ascii ".pkg")

def analyse (fs : Files) : List (List UInt8) → Analysis → Except Stop Analysis
  | [], a => .ok a
  | arg :: args, a =>
    if skipped arg then analyse fs args a
    else match fs.stat arg with
      | none => .error (.die "stat")
      | some f =>
        if f.isDir then analyse fs args a
        else if f.contents.length = 0 then .error (.die "file is empty")
        else if 0x7ffff000 < f.contents.length then .error (.die "file too large")
        else (symbols f.elf).bind fun names => analyse fs args (a.add arg f names)

/-! ### Layout -/

/-- `ROUNDUP (X, 2)` -/
def roundup (n : ℕ) : ℕ := (n + 1) / 2 * 2

def sizeofArHdr : ℕ := 60

def heapSize : ℕ := 256 * 1024 * 1024

def intMax : ℕ := 2 ^ 31 - 1

/-- The lengths of the members behind the two tables, added to `outsize`: the offsets and the
`outsize` of the whole. -/
def layout : ℕ → List ℕ → Except Stop (List ℕ × ℕ)
  | outsize, [] => .ok ([], outsize)
  | outsize, size :: sizes =>
    let outsize := outsize + outsize % 2
    if intMax < outsize then .error (.die "archive too large")
    else (layout (outsize + sizeofArHdr + size) sizes).map fun r => (outsize :: r.1, r.2)

/-! ### Output -/

def field (n : ℕ) (s : List UInt8) : List UInt8 := s ++ List.replicate (n - s.length) space

def makeArHeader (name : List UInt8) (mode size : ℕ) : Except Stop (List UInt8) :=
  if 16 < name.length then .error (.die "ar_name overflow")
  else .ok (field 16 name ++
    (if name = ascii "//" then List.replicate 32 space
      else field 12 (ascii "0") ++ field 6 (ascii "0") ++ field 6 (ascii "0") ++
        field 8 (formatOctal32 (mode % 0o1000) false)) ++
    field 10 (formatUint64 size) ++ arfmag)

/-- The second loop over the files, behind `outsize` bytes. -/
def emit : ℕ → List Entry → Except Stop (List UInt8)
  | _, [] => .ok []
  | outsize, e :: es =>
    (makeArHeader e.name e.file.mode e.size).bind fun header =>
      (emit (outsize + outsize % 2 + sizeofArHdr + e.size) es).map fun rest =>
        (ascii "\n").take (outsize % 2) ++ header ++ e.file.contents ++ rest

namespace Analysis

variable (a : Analysis)

def tablebufsize : ℕ := 4 + a.symnames.length * 4

def tablebuf (offsets : List ℕ) : List UInt8 :=
  Order.big.encode 4 a.symnames.length ++
    Order.big.encodeAll 4 (a.symnames.map fun i => offsets.getD i 0)

/-- The two headers. -/
def header1 : Except Stop (List UInt8) :=
  makeArHeader (ascii "/") 0 (a.tablebufsize + roundup a.symbols.length)

def header2 : Except Stop (List UInt8) := makeArHeader (ascii "//") 0 (roundup a.filenames.length)

/-- The bytes the symbol table ends at. -/
def symbolsEnd : ℕ := 8 + sizeofArHdr + a.tablebufsize + a.symbols.length

/-- `outsize` after the eight pieces of the first `writev`. -/
def metadataEnd : ℕ :=
  a.symbolsEnd + a.symbolsEnd % 2 + (if a.filenames.length ≠ 0 then sizeofArHdr else 0) +
    a.filenames.length + a.filenames.length % 2

/-- The eight pieces. -/
def metadata (header1 header2 : List UInt8) (offsets : List ℕ) : List UInt8 :=
  armag ++ header1 ++ a.tablebuf offsets ++ a.symbols ++ [0].take (a.symbolsEnd % 2) ++
    (if a.filenames.length ≠ 0 then header2 else []) ++ a.filenames ++
    (ascii "\n").take (a.filenames.length % 2)

end Analysis

/-- The archive, and the size that was computed for it. -/
structure Output where
  bytes : List UInt8
  outsize : ℕ

/-- `ar_main` from the file arguments on. -/
def arMain (fs : Files) (args : List (List UInt8)) : Except Stop Output :=
  (analyse fs args Analysis.empty).bind fun a =>
    if heapSize < a.tablebufsize then .error (.die "out of memory")
    else (layout a.metadataEnd (a.entries.map Entry.size)).bind fun l =>
      a.header1.bind fun header1 => a.header2.bind fun header2 =>
        let metadata := a.metadata header1 header2 l.1
        (emit metadata.length a.entries).map fun rest => ⟨metadata ++ rest, l.2⟩

end Bootsh.Ar
