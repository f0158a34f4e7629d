import Bootsh.Lib.Bytes
import Bootsh.Lib.Fallible
import Mathlib.Logic.Function.Basic

/-!
The log of dependencies of `deps.c`: the file `.ninja_deps`, the ids of the nodes,
and the array of entries that they number. A node is its path, since `mknode` makes
one node for each path.
-/
namespace Bootsh.Samu

open Bytes (Order)

/-- The bytes of a path; the last need not be the first NUL. -/
abbrev Path := List UInt8

/-- How a function stops that does not return: with `fatal`, or with undefined
behaviour, by what it read or wrote. -/
inductive Stop
  | fatal
  /-- Outside the bytes of the record. -/
  | buffer
  /-- A pointer that was not set. -/
  | pointer
  /-- `entries[id]` outside the array or before it was set. -/
  | entries
  deriving DecidableEq, Repr

def MAX_RECORD_SIZE : ℕ := 2 ^ 19

def INT32_MAX : ℕ := 2 ^ 31 - 1

/-- `struct entry`. The array `deps.node` is `NULL` until a record is read, and the
elements that were not set are `none`. -/
structure Entry where
  node : Path
  deps : Option (List (Option Path))
  mtime : BitVec 64
  deriving DecidableEq, Repr

/-- The static variables of `deps.c`, and the ids of the nodes, without -1. -/
structure Deps where
  id : Path → Option ℕ
  entries : ℕ → Option Entry
  entrieslen : ℕ
  entriescap : ℕ
  depsfile : List UInt8

namespace Deps

variable (d : Deps)

/-- Reading `entries[i]`. -/
def entryAt (i : ℕ) : Except Stop Entry :=
  if i < d.entriescap then
    match d.entries i with
    | some entry => .ok entry
    | none => .error .entries
  else .error .entries

/-- Writing `entries[i]`. -/
def setEntry (i : ℕ) (entry : Entry) : Except Stop Deps :=
  if i < d.entriescap then .ok { d with entries := Function.update d.entries i (some entry) }
  else .error .entries

def depswrite (bytes : List UInt8) : Deps := { d with depsfile := d.depsfile ++ bytes }

end Deps

section Write

variable (o : Order)

/-- The four bytes of an integer, in the order of the system. -/
def word (n : ℕ) : List UInt8 := o.encode 4 n

/-- The bits of `node->id`. -/
def idWord : Option ℕ → ℕ
  | some id => id
  | none => 2 ^ 32 - 1

/-- The size of the record of a node: `(n->path->n + 7) & ~3`, in a `uint32_t`. -/
def nodeSize (n : Path) : ℕ := (n.length + 7) / 4 * 4 % 2 ^ 32

/-- The size of the record of a list: `12 + deps->len * 4`, in a `uint32_t`. -/
def depsSize (deps : List Path) : ℕ := (12 + deps.length * 4) % 2 ^ 32

def nodeRecord (n : Path) (id : ℕ) : List UInt8 :=
  word o (nodeSize n) ++ n ++ List.replicate (nodeSize n - n.length - 4) 0 ++
    word o (2 ^ 32 - 1 - id)

def depsRecord (id : Path → Option ℕ) (out : Path) (deps : List Path) (mtime : BitVec 64) :
    List UInt8 :=
  word o (depsSize deps ||| 0x80000000) ++ word o (idWord (id out)) ++
    word o (mtime &&& 0xffffffff).toNat ++ word o (mtime.sshiftRight 32 &&& 0xffffffff).toNat ++
    deps.flatMap fun n => word o (idWord (id n))

/-- Whether a new id was given. -/
def recordid (n : Path) (d : Deps) : Except Stop (Bool × Deps) :=
  match d.id n with
  | some _ => .ok (false, d)
  | none =>
    if d.entrieslen = INT32_MAX then .error .fatal
    else if MAX_RECORD_SIZE ≤ (nodeSize n + 4) % 2 ^ 32 then .error .fatal
    -- the number of the bytes that pad the path has no sign
    else if nodeSize n < n.length + 4 then .error .buffer
    else
      .ok (true, { d with
        id := Function.update d.id n (some d.entrieslen)
        entrieslen := d.entrieslen + 1 }.depswrite (nodeRecord o n d.entrieslen))

def recorddeps (out : Path) (deps : List Path) (mtime : BitVec 64) (d : Deps) :
    Except Stop Deps :=
  if MAX_RECORD_SIZE ≤ (depsSize deps + 4) % 2 ^ 32 then .error .fatal
  else .ok (d.depswrite (depsRecord o d.id out deps mtime))

/-- `recordid` for the elements of an array, in their order. -/
def recordids : List (Option Path) → Deps → Except Stop Deps :=
  Fallible.each fun n d =>
    match n with
    | some n => (recordid o n d).map Prod.snd
    | none => .error .pointer

end Write

section Load

variable (o : Order) (usesDeps : Path → Bool)

/-- `buf[i]`. -/
def wordAt (buf : List UInt8) (i : ℕ) : Except Stop ℕ :=
  if 4 * i + 4 ≤ buf.length then .ok (o.decode ((buf.drop (4 * i)).take 4)) else .error .buffer

/-- `while (buf[len - 1] == '\0') --len;` -/
def stripNul (buf : List UInt8) : ℕ → Except Stop ℕ
  | 0 => .error .buffer
  | len + 1 =>
    match buf[len]? with
    | none => .error .buffer
    | some c => if c = 0 then stripNul buf len else .ok (len + 1)

/-- What a turn of the loop over the records comes to. -/
inductive Turn
  /-- There is no further record: the loop is left. -/
  | eof (rest : List UInt8)
  /-- `goto rewrite` -/
  | bad (d : Deps)
  | next (d : Deps) (rest : List UInt8)

/-- The loop that fills `entry->deps.node` from its `i`-th element on, and whether it came to
the end. -/
def loadList (d : Deps) (buf : List UInt8) (i : ℕ) : ℕ → Except Stop (Bool × List (Option Path))
  | 0 => .ok (true, [])
  | k + 1 =>
    (wordAt o buf (3 + i)).bind fun id =>
      if d.entrieslen ≤ id then .ok (false, List.replicate (k + 1) none)
      else (d.entryAt id).bind fun entry =>
        (loadList d buf (i + 1) k).map fun (ok, nodes) => (ok, some entry.node :: nodes)

def loadDeps (d : Deps) (buf rest : List UInt8) : Except Stop Turn :=
  if buf.length < 12 then .ok (.bad d)
  else (wordAt o buf 0).bind fun id =>
    if d.entrieslen ≤ id then .ok (.bad d)
    else (d.entryAt id).bind fun entry =>
      (wordAt o buf 1).bind fun low => (wordAt o buf 2).bind fun high =>
        let mtime := BitVec.ofNat 64 high <<< 32 ||| BitVec.ofNat 64 low
        -- the edge that builds the node need not exist, nor have the variable `deps`
        if usesDeps entry.node then
          (loadList o d buf 0 ((buf.length - 12) / 4)).bind fun (ok, nodes) =>
            (d.setEntry id ⟨entry.node, some nodes, mtime⟩).map fun d =>
              if ok then .next d rest else .bad d
        else (d.setEntry id { entry with mtime }).map fun d => .next d rest

/-- `entriescap` when there has to be room for one more. -/
def grown (d : Deps) : ℕ :=
  if d.entriescap ≤ d.entrieslen then if d.entriescap = 0 then 1024 else d.entriescap * 2
  else d.entriescap

def addNode (n : Path) (d : Deps) : Except Stop Deps :=
  { d with
    entriescap := grown d
    entrieslen := d.entrieslen + 1
    id := Function.update d.id n (some d.entrieslen) }.setEntry d.entrieslen ⟨n, none, 0⟩

def loadNode (d : Deps) (buf rest : List UInt8) : Except Stop Turn :=
  if buf.length ≤ 4 then .ok (.bad d)
  else (wordAt o buf (buf.length / 4 - 1)).bind fun chk =>
    if d.entrieslen ≠ 2 ^ 32 - 1 - chk then .ok (.bad d)
    else if d.entrieslen = INT32_MAX then .ok (.bad d)
    else (stripNul buf (buf.length - 4)).bind fun len =>
      (addNode (buf.take len) d).map fun d => .next d rest

/-- One turn of the loop over the records. `fread` of no bytes, or of more than there are,
does not return 1. -/
def loadRecord (d : Deps) (input : List UInt8) : Except Stop Turn :=
  if input.length < 4 then .ok (.eof input)
  else
    let w := o.decode (input.take 4)
    let sz := w % 2 ^ 31
    let buf := (input.drop 4).take sz
    if MAX_RECORD_SIZE < sz then .ok (.bad d)
    else if sz = 0 ∨ buf.length < sz then .ok (.bad d)
    else if sz % 4 ≠ 0 then .ok (.bad d)
    -- the high bit of the size
    else if 2 ^ 31 ≤ w then loadDeps o usesDeps d buf (input.drop (4 + sz))
    else loadNode o d buf (input.drop (4 + sz))

inductive Loaded
  | bad (d : Deps)
  | done (d : Deps) (nrecord : ℕ) (rest : List UInt8)

/-- The loop over the records. Every turn but the last reads four bytes or more, so that there
are fewer turns than bytes. -/
def loadLoop : ℕ → Deps → ℕ → List UInt8 → Except Stop Loaded
  | 0, d, nrecord, input => .ok (.done d nrecord input)
  | fuel + 1, d, nrecord, input =>
    (loadRecord o usesDeps d input).bind fun
      | .eof rest => .ok (.done d nrecord rest)
      | .bad d => .ok (.bad d)
      | .next d input => loadLoop fuel d (nrecord + 1) input

def loadRecords (d : Deps) (nrecord : ℕ) (input : List UInt8) : Except Stop Loaded :=
  loadLoop o usesDeps (input.length + 1) d nrecord input

def depsheader : List UInt8 := [35, 32, 110, 105, 110, 106, 97, 100, 101, 112, 115, 10]

def depsver : ℕ := 4

def depsstart : List UInt8 := depsheader ++ word o depsver

/-- The state of `depsinit` before it reads. No node has an id, and the array is what an
earlier graph left of it. -/
def noDeps (cap : ℕ) : Deps := ⟨fun _ => none, fun _ => none, 0, cap, []⟩

/-- `depsinit` up to its decision whether to rewrite the log. -/
def load (cap : ℕ) (content : List UInt8) : Except Stop Loaded :=
  if content.take 12 ≠ depsheader then .ok (.bad (noDeps cap))
  else if ((content.drop 12).take 4).length < 4 then .ok (.bad (noDeps cap))
  else if o.decode ((content.drop 12).take 4) ≠ depsver then .ok (.bad (noDeps cap))
  else loadRecords o usesDeps (noDeps cap) 0 (content.drop 16)

end Load

section Rewrite

variable (o : Order) (usesDeps : Path → Bool)

/-- `entries[i].node->id = -1`, for the entry. -/
def resetId (i : ℕ) (d : Deps) : Except Stop Deps :=
  (d.entryAt i).map fun entry => { d with id := Function.update d.id entry.node none }

/-- The turn of the loop that copies the old entry. -/
def rewriteEntry (entry : Entry) (d : Deps) : Except Stop Deps :=
  match entry.deps with
  | none => .ok d
  | some [] => .ok d
  | some deps =>
    (recordid o entry.node d).bind fun (_, d) =>
      (d.setEntry (idWord (d.id entry.node)) entry).bind fun d =>
        (recordids o deps d).bind fun d => recorddeps o entry.node deps.reduceOption entry.mtime d

def rewriteAt (old : Deps) (i : ℕ) (d : Deps) : Except Stop Deps :=
  (old.entryAt i).bind fun entry => rewriteEntry o entry d

/-- The part of `depsinit` behind `rewrite`. -/
def rewrite (old : Deps) : Except Stop Deps :=
  (Fallible.each resetId (List.range old.entrieslen) old).bind fun d =>
    Fallible.each (rewriteAt o old) (List.range old.entrieslen)
      { d with entrieslen := 0, depsfile := depsstart o }

/-- Whether the log has so many records that it is written anew. -/
def compacts (d : Deps) (nrecord : ℕ) : Prop :=
  ¬ (nrecord ≤ 1000 ∨ nrecord < 3 * d.entrieslen)

instance (d : Deps) (nrecord : ℕ) : Decidable (compacts d nrecord) :=
  inferInstanceAs (Decidable (¬ _))

def depsinit (cap : ℕ) (content : List UInt8) : Except Stop Deps :=
  (load o usesDeps cap content).bind fun
    | .bad d => rewrite o d
    | .done d nrecord _ =>
      if compacts d nrecord then rewrite o d else .ok { d with depsfile := content }

end Rewrite

section Run

variable (o : Order)

/-- `depsload` for an edge with the variable `deps`: the list it adds to the inputs of the
edge, or `none` when the output is dirty. -/
def depsload (out : Path) (mtime : BitVec 64) (d : Deps) :
    Except Stop (Option (List (Option Path))) :=
  match d.id out with
  | none => .ok none
  | some id =>
    (d.entryAt id).map fun entry =>
      if mtime.sle entry.mtime then some (entry.deps.getD []) else none

/-- Whether the entry of the output differs from what is to be recorded. -/
def outdated (deps : List Path) (mtime : BitVec 64) (entry : Entry) : Bool :=
  decide (entry.mtime ≠ mtime ∨ entry.deps.getD [] ≠ deps.map some)

/-- `depsrecord` for an edge whose depfile lists `deps`; without a list it returns early. -/
def depsrecord (out : Path) (deps : Option (List Path)) (mtime : BitVec 64) (d : Deps) :
    Except Stop Deps :=
  match deps with
  | none => .ok d
  | some deps =>
    (recordid o out d).bind fun (new, d₁) =>
      let old := if new then .ok true else
        (d₁.entryAt (idWord (d₁.id out))).map (outdated deps mtime)
      old.bind fun update =>
        (recordids o (deps.map some) d₁).bind fun d₂ =>
          -- a node that had no id makes the record outdated too
          if update ∨ d₂.entrieslen ≠ d₁.entrieslen then recorddeps o out deps mtime d₂
          else .ok d₂

end Run

end Bootsh.Samu
