import Bootsh.CString
import Bootsh.Lib.Tile

/-!
Copying the tree of a function (`nodes.c.pat`). The bodies of `calcsize` and `copynode` are
generated by `mknodes` from the table `nodetypes`; here both run over the same table.
-/
namespace Bootsh.Nodes

open Tile

/-! ### The table -/

/-- The types of fields that `nodetypes` may give. -/
inductive FieldType
  | nodeptr
  | nodelist
  | string
  | int
  | other
  | temp
  deriving DecidableEq, Repr

/-- `struct str` of `mknodes`: the fields of a node structure, `type` first. -/
structure Str where
  tag : String
  fields : List (String × FieldType)

namespace Str

def ncmd : Str := ⟨"ncmd", [("type", .int), ("linno", .int), ("assign", .nodeptr),
  ("args", .nodeptr), ("redirect", .nodeptr)]⟩

def npipe : Str := ⟨"npipe", [("type", .int), ("backgnd", .int), ("cmdlist", .nodelist)]⟩

def nredir : Str := ⟨"nredir", [("type", .int), ("linno", .int), ("n", .nodeptr),
  ("redirect", .nodeptr)]⟩

def nbinary : Str := ⟨"nbinary", [("type", .int), ("ch1", .nodeptr), ("ch2", .nodeptr)]⟩

def nif : Str := ⟨"nif", [("type", .int), ("test", .nodeptr), ("ifpart", .nodeptr),
  ("elsepart", .nodeptr)]⟩

def nfor : Str := ⟨"nfor", [("type", .int), ("linno", .int), ("args", .nodeptr),
  ("body", .nodeptr), ("var", .string)]⟩

def ncase : Str := ⟨"ncase", [("type", .int), ("linno", .int), ("expr", .nodeptr),
  ("cases", .nodeptr)]⟩

def nclist : Str := ⟨"nclist", [("type", .int), ("next", .nodeptr), ("pattern", .nodeptr),
  ("body", .nodeptr)]⟩

def ndefun : Str := ⟨"ndefun", [("type", .int), ("linno", .int), ("text", .string),
  ("body", .nodeptr)]⟩

def narg : Str := ⟨"narg", [("type", .int), ("next", .nodeptr), ("text", .string),
  ("backquote", .nodelist)]⟩

def nfile : Str := ⟨"nfile", [("type", .int), ("next", .nodeptr), ("fd", .int),
  ("fname", .nodeptr), ("expfname", .temp)]⟩

def ndup : Str := ⟨"ndup", [("type", .int), ("next", .nodeptr), ("fd", .int), ("dupfd", .int),
  ("vname", .nodeptr)]⟩

def nhere : Str := ⟨"nhere", [("type", .int), ("next", .nodeptr), ("fd", .int),
  ("doc", .nodeptr)]⟩

def nnot : Str := ⟨"nnot", [("type", .int), ("com", .nodeptr)]⟩

end Str

inductive NodeType
  | ncmd | npipe | nredir | nbackgnd | nsubshell | nand | nor | nsemi | nif | nwhile | nuntil
  | nfor | ncase | nclist | ndefun | narg | nto | nclobber | nfrom | nfromto | nappend | ntofd
  | nfromfd | nhere | nxhere | nnot
  deriving DecidableEq, Repr

def nodestr : NodeType → Str
  | .ncmd => .ncmd
  | .npipe => .npipe
  | .nredir | .nbackgnd | .nsubshell => .nredir
  | .nand | .nor | .nsemi | .nwhile | .nuntil => .nbinary
  | .nif => .nif
  | .nfor => .nfor
  | .ncase => .ncase
  | .nclist => .nclist
  | .ndefun => .ndefun
  | .narg => .narg
  | .nto | .nclobber | .nfrom | .nfromto | .nappend => .nfile
  | .ntofd | .nfromfd => .ndup
  | .nhere | .nxhere => .nhere
  | .nnot => .nnot

/-- An `int` takes four bytes and a pointer eight, each aligned to its own size. -/
def FieldType.size : FieldType → ℕ
  | .int => 4
  | _ => 8

/-- `sizeof (struct tag)`. -/
def Str.sizeof (s : Str) : ℕ :=
  let align := s.fields.foldl (fun a f => max a f.2.size) 1
  roundUp align (s.fields.foldl (fun off f => roundUp f.2.size off + f.2.size) 0)

/-- `SHELL_ALIGN`: pointers and `double` take eight bytes. -/
def shellAlign (nbytes : ℕ) : ℕ := roundUp 8 nbytes

def nodesize (t : NodeType) : ℕ := shellAlign (nodestr t).sizeof

/-- The size in the table holds the structure. -/
theorem sizeof_le_nodesize (t : NodeType) : (nodestr t).sizeof ≤ nodesize t :=
  le_roundUp (by decide)

/-- `SHELL_ALIGN(sizeof(struct nodelist))`, of two pointers. -/
def nodelistsize : ℕ := shellAlign 16

/-- `offsetof(struct funcnode, n)`, behind the `int` count. -/
def funcnodeOffset : ℕ := roundUp 8 4

/-! ### Trees -/

mutual

/-- A `union node *`: null, or the node at an address, with the fields after `type`. -/
inductive Node : Type
  | null
  | mk (addr : ℕ) (type : NodeType) (fields : Fields (nodestr type).fields.tail)

inductive Fields : List (String × FieldType) → Type
  | nil : Fields []
  | cons {name : String} {t : FieldType} {ts : List (String × FieldType)} (f : Field t)
      (fs : Fields ts) : Fields ((name, t) :: ts)

/-- The value of a field. One that is `temp` has no value (`none`) until it is assigned. -/
inductive Field : FieldType → Type
  | nodeptr (n : Node) : Field .nodeptr
  | nodelist (lp : Nodelist) : Field .nodelist
  | string (addr : ℕ) (s : Text) : Field .string
  | int (v : BitVec 32) : Field .int
  | other (v : BitVec 64) : Field .other
  | temp (v : Option (BitVec 64)) : Field .temp

/-- A `struct nodelist *`. -/
inductive Nodelist : Type
  | nil
  | cons (addr : ℕ) (n : Node) (next : Nodelist)

end

/-! ### The size of a copy -/

/-- The globals `funcblocksize` and `funcstringsize`, which are `int`s. -/
structure Sizes where
  funcblocksize : BitVec 32
  funcstringsize : BitVec 32
  deriving DecidableEq, Repr

def Sizes.block (z : Sizes) (n : ℕ) : Sizes :=
  { z with funcblocksize := z.funcblocksize + BitVec.ofNat 32 n }

/-- The sum is one of `size_t` and loses its high half in the assignment. -/
def Sizes.string (z : Sizes) (n : ℕ) : Sizes :=
  { z with funcstringsize := z.funcstringsize + BitVec.ofNat 32 n }

mutual

def calcsize : Node → Sizes → Sizes
  | .null, z => z
  | .mk _ t fs, z => calcsizeFields fs (z.block (nodesize t))

/-- `outfunc` goes from the last field to the first. -/
def calcsizeFields {ts : List (String × FieldType)} : Fields ts → Sizes → Sizes
  | .nil, z => z
  | .cons f fs, z => calcsizeField f (calcsizeFields fs z)

def calcsizeField {t : FieldType} : Field t → Sizes → Sizes
  | .nodeptr n, z => calcsize n z
  | .nodelist lp, z => sizenodelist lp z
  | .string _ s, z => z.string (s.length + 1)
  | .int _, z => z
  | .other _, z => z
  | .temp _, z => z

def sizenodelist : Nodelist → Sizes → Sizes
  | .nil, z => z
  | .cons _ n next, z => sizenodelist next (calcsize n (z.block nodelistsize))

end

/-! ### The copy -/

/-- The globals `funcblock` and `funcstring`. -/
structure Cursor where
  funcblock : ℕ
  funcstring : ℕ
  deriving DecidableEq, Repr

def Cursor.block (k : Cursor) (n : ℕ) : Cursor := { k with funcblock := k.funcblock + n }

/-- `nodesavestr`: the string goes to `funcstring`, with its NUL. -/
def nodesavestr (s : Text) (k : Cursor) : Field .string × Cursor :=
  (.string k.funcstring s, { k with funcstring := k.funcstring + s.length + 1 })

mutual

def copynode : Node → Cursor → Node × Cursor
  | .null, k => (.null, k)
  | .mk _ t fs, k =>
    let c := copyFields fs (k.block (nodesize t))
    (.mk k.funcblock t c.1, c.2)

def copyFields {ts : List (String × FieldType)} : Fields ts → Cursor → Fields ts × Cursor
  | .nil, k => (.nil, k)
  | .cons f fs, k =>
    let cs := copyFields fs k
    let c := copyField f cs.2
    (.cons c.1 cs.1, c.2)

def copyField {t : FieldType} : Field t → Cursor → Field t × Cursor
  | .nodeptr n, k => let c := copynode n k; (.nodeptr c.1, c.2)
  | .nodelist lp, k => let c := copynodelist lp k; (.nodelist c.1, c.2)
  | .string _ s, k => nodesavestr s k
  | .int v, k => (.int v, k)
  | .other v, k => (.other v, k)
  | .temp _, k => (.temp none, k)

def copynodelist : Nodelist → Cursor → Nodelist × Cursor
  | .nil, k => (.nil, k)
  | .cons _ n next, k =>
    let c := copynode n (k.block nodelistsize)
    let cs := copynodelist next c.2
    (.cons k.funcblock c.1 cs.1, cs.2)

end

/-- The sizes `copyfunc` finds. -/
def funcsizes (n : Node) : Sizes := calcsize n ⟨BitVec.ofNat 32 funcnodeOffset, 0⟩

/-- The `size_t` the block size is assigned to. -/
def Sizes.blocksize (z : Sizes) : BitVec 64 := z.funcblocksize.signExtend 64

/-- What `ckmalloc` is asked for. -/
def Sizes.total (z : Sizes) : BitVec 64 := z.blocksize + z.funcstringsize.signExtend 64

/-- A function: where its block is, what was asked for it, and the copy in it. -/
structure Funcnode where
  addr : ℕ
  sizes : Sizes
  count : ℕ
  n : Node

/-- `copyfunc`, over an allocator that may be out of space. -/
def copyfunc (ckmalloc : BitVec 64 → Option ℕ) (n : Node) : Option Funcnode :=
  let z := funcsizes n
  (ckmalloc z.total).map fun f =>
    ⟨f, z, 0, (copynode n ⟨f + funcnodeOffset, f + z.blocksize.toNat⟩).1⟩

end Bootsh.Nodes
