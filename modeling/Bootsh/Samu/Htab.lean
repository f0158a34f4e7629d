import Bootsh.Samu.Parse

/-!
The hash table of `htab.c`, and the table of all nodes of `graph.c`, with `mknode` and `nodeget`.
-/
namespace Bootsh.Samu.Manifest

/-! ### htab.c -/

/-- `struct hashtablekey` -/
structure Key where
  hash : BitVec 64
  str : Text
  deriving DecidableEq

/-- `struct hashtable`. A slot is a key that is not a null pointer, with the value, which may be
one. -/
structure Hashtable where
  len : ℕ
  cap : ℕ
  slots : List (Option (Key × Option ℕ))

section

variable (malloc : ℕ → Bool)

def xmalloc (n : ℕ) : Except Stop Unit := if malloc n then .ok () else .error (.fatal "malloc:")

def xreallocarray (n m : ℕ) : Except Stop Unit :=
  if m ≠ 0 ∧ (2 ^ 64 - 1) / m < n ∨ malloc (n * m) = false then .error (.fatal "reallocarray:")
  else .ok ()

/-- The arrays `keys` and `vals`, with no key in any slot. -/
def mkslots (cap : ℕ) : Except Stop (List (Option (Key × Option ℕ))) := do
  xreallocarray malloc cap 24
  xreallocarray malloc cap 8
  return List.replicate cap none

def mkhtab (cap : ℕ) : Except Stop Hashtable :=
  if cap &&& (cap - 1) ≠ 0 then .error (.fatal "assertion")
  else do
    let slots ← mkslots malloc cap
    return ⟨0, cap, slots⟩

def keyequal (k1 k2 : Key) : Bool :=
  if k1.hash ≠ k2.hash ∨ k1.str.length ≠ k2.str.length then false else k1.str == k2.str

/-- The loop of `keyindex`, for `fuel` slots. -/
def keyprobe (h : Hashtable) (k : Key) : ℕ → ℕ → Except Stop ℕ
  | 0, _ => .error .endless
  | fuel + 1, i =>
    match h.slots.getD i none with
    | none => .ok i
    | some slot =>
      if keyequal slot.1 k then .ok i else keyprobe h k fuel ((i + 1) &&& (h.cap - 1))

/-- The loop that comes to no end has been in every slot. -/
def keyindex (h : Hashtable) (k : Key) : Except Stop ℕ :=
  keyprobe h k h.cap (k.hash.toNat &&& (h.cap - 1))

/-- The loop that puts the old keys into the new arrays. -/
def rehash : List (Option (Key × Option ℕ)) → Hashtable → Except Stop Hashtable
  | [], h => .ok h
  | none :: old, h => rehash old h
  | some slot :: old, h => do
    let j ← keyindex h slot.1
    rehash old { h with slots := h.slots.set j (some slot) }

def grow (h : Hashtable) : Except Stop Hashtable :=
  if h.cap / 2 < h.len then do
    let cap := h.cap * 2 % 2 ^ 64
    let slots ← mkslots malloc cap
    rehash h.slots ⟨h.len, cap, slots⟩
  else .ok h

/-- The table, and the slot of the value that a pointer is given to. -/
def htabput (h : Hashtable) (k : Key) : Except Stop (Hashtable × ℕ) := do
  let h ← grow malloc h
  let i ← keyindex h k
  match h.slots.getD i none with
  | none => return (⟨h.len + 1, h.cap, h.slots.set i (some (k, none))⟩, i)
  | some _ => return (h, i)

/-- The value behind the pointer, which is null or a node. -/
def Hashtable.val (h : Hashtable) (i : ℕ) : Option ℕ := (h.slots.getD i none).bind Prod.snd

def htabget (h : Hashtable) (k : Key) : Except Stop (Option ℕ) := do
  let i ← keyindex h k
  return h.val i

end

/-! ### graph.c -/

/-- `allnodes`, and the paths of the nodes that have been made. -/
structure Allnodes where
  htab : Hashtable
  nodes : List Text

section

variable (malloc : ℕ → Bool) (hash : Text → BitVec 64)

def htabkey (s : Text) : Key := ⟨hash s, s⟩

def graphinit : Except Stop Allnodes := do
  let htab ← mkhtab malloc 1024
  return ⟨htab, []⟩

def mknode (a : Allnodes) (path : Text) : Except Stop (ℕ × Allnodes) := do
  let (h, i) ← htabput malloc a.htab (htabkey hash path)
  match h.val i with
  | some n => return (n, { a with htab := h })
  | none => do
    xmalloc malloc 72
    let n := a.nodes.length
    let slots := h.slots.modify i (Option.map fun slot => (slot.1, some n))
    return (n, ⟨{ h with slots }, a.nodes ++ [path]⟩)

/-- What the argument of `nodeget` stands for: without a length it is a string of C. -/
def nodename (path : Text) (len : ℕ) : Text := if len = 0 then cstr path else path.take len

def nodeget (a : Allnodes) (path : Text) (len : ℕ) : Except Stop (Option ℕ) :=
  htabget a.htab (htabkey hash (nodename path len))

end

/-! ### Calls -/

/-- A call of one of the functions. -/
inductive TableCall where
  | htabput (path : Text)
  | htabget (path : Text)
  | mknode (path : Text)
  | nodeget (path : Text) (len : ℕ)

/-- The value that a call finds, and the table behind it. -/
def TableCall.run (malloc : ℕ → Bool) (hash : Text → BitVec 64) (c : TableCall) (a : Allnodes) :
    Except Stop (Option ℕ × Allnodes) :=
  match c with
  | .htabput path => do
    let (h, i) ← Manifest.htabput malloc a.htab (htabkey hash path)
    return (h.val i, { a with htab := h })
  | .htabget path => do
    let val ← Manifest.htabget a.htab (htabkey hash path)
    return (val, a)
  | .mknode path => do
    let (n, a) ← Manifest.mknode malloc hash a path
    return (some n, a)
  | .nodeget path len => do
    let val ← Manifest.nodeget hash a path len
    return (val, a)

/-- What the calls find one after the other, and the table behind the last one. -/
def runcalls (malloc : ℕ → Bool) (hash : Text → BitVec 64) :
    List TableCall → Allnodes → Except Stop (List (Option ℕ) × Allnodes)
  | [], a => .ok ([], a)
  | c :: cs, a => do
    let (val, a) ← c.run malloc hash a
    let (vals, a) ← runcalls malloc hash cs a
    return (val :: vals, a)

end Bootsh.Samu.Manifest
