import Bootsh.CString
import Bootsh.Lib.Tile

/-!
The stack allocator (`memalloc.c`). Blocks are chained from `stackp` down to the static block
`stackbase`; the open string begins at `stacknxt`, and `stacknleft` bytes are left for it up to
`sstrend`. Sizes are of the 64 bits of `size_t`. What `ckmalloc` and `ckrealloc` answer is a
parameter of each call.
-/
namespace Bootsh.Memalloc

open Tile

/-- `SHELL_ALIGN` on a `size_t`. -/
def shellAlign (nbytes : ℕ) : ℕ := (nbytes + 7) % 2 ^ 64 / 8 * 8

def minsize : ℕ := shellAlign 504

/-- A `struct stack_block`: its address and the length of its space. -/
structure Block where
  addr : ℕ
  len : ℕ
  deriving DecidableEq, Repr

/-- The space stands behind the pointer `prev`. -/
def Block.space (b : Block) : ℕ := b.addr + 8

def Block.span (b : Block) : Span := ⟨b.addr, 8 + b.len⟩

/-- The globals, with the blocks below `stackp` in the order of their `prev`, and memory. -/
structure Stack where
  mem : ℕ → Char
  stackp : Block
  prev : List Block
  stacknxt : ℕ
  stacknleft : ℕ
  sstrend : ℕ

/-- What the two allocators answer to a size; they may be out of space. -/
structure Heap where
  ckmalloc : ℕ → Option ℕ
  ckrealloc : ℕ → Option ℕ

structure Stackmark where
  stackp : ℕ
  stacknxt : ℕ
  stacknleft : ℕ
  deriving DecidableEq, Repr

namespace Stack

def chain (s : Stack) : List Block := s.stackp :: s.prev

def initial (base : ℕ) (mem : ℕ → Char) : Stack :=
  ⟨mem, ⟨base, minsize⟩, [], base + 8, minsize, base + 8 + minsize⟩

/-- A new block on top. -/
def link (s : Stack) (b : Block) : Stack :=
  { s with
    stackp := b, prev := s.chain, stacknxt := b.space, stacknleft := b.len,
    sstrend := b.space + b.len }

def take (s : Stack) (n : ℕ) : Stack :=
  { s with stacknxt := s.stacknxt + n, stacknleft := s.stacknleft - n }

/-- `stalloc`, with the pointer it returns. -/
def stalloc (h : Heap) (nbytes : ℕ) (s : Stack) : Option (ℕ × Stack) :=
  let aligned := shellAlign nbytes
  if s.stacknleft < aligned then
    let blocksize := if aligned < minsize then minsize else aligned
    let len := (8 + blocksize) % 2 ^ 64
    if len < blocksize then none
    else (h.ckmalloc len).map fun sp =>
      let s := s.link ⟨sp, blocksize⟩
      (s.stacknxt, s.take aligned)
  else some (s.stacknxt, s.take aligned)

def stunalloc (p : ℕ) (s : Stack) : Stack :=
  { s with stacknleft := s.stacknleft + (s.stacknxt - p), stacknxt := p }

def pushstackmark (h : Heap) (len : ℕ) (s : Stack) : Option (Stackmark × Stack) :=
  (s.stalloc h len).map fun r => (⟨s.stackp.addr, s.stacknxt, s.stacknleft⟩, r.2)

/-- Whether the open string begins a block that is not `stackbase`. -/
def atStart (base : ℕ) (s : Stack) : Bool :=
  s.stacknxt == s.stackp.space && s.stackp.addr != base

def setstackmark (base : ℕ) (h : Heap) (s : Stack) : Option (Stackmark × Stack) :=
  s.pushstackmark h (s.atStart base).toNat

end Stack

/-- The loop of `popstackmark`: blocks are freed until the given one is on top. Past `stackbase`
there is no block. -/
def unwind (addr : ℕ) : List Block → Option (Block × List Block)
  | [] => none
  | b :: bs => if b.addr = addr then some (b, bs) else unwind addr bs

def memcpy (mem : ℕ → Char) (dst src n : ℕ) : ℕ → Char := fun a =>
  if dst ≤ a ∧ a < dst + n then mem (src + (a - dst)) else mem a

namespace Stack

def popstackmark (mark : Stackmark) (s : Stack) : Option Stack :=
  (unwind mark.stackp s.chain).map fun r =>
    { s with
      stackp := r.1, prev := r.2, stacknxt := mark.stacknxt, stacknleft := mark.stacknleft,
      sstrend := mark.stacknxt + mark.stacknleft }

/-- The sizes `min` and `newlen` of `growstackblock`; none when the length cannot be doubled. -/
def newlen (min : ℕ) (s : Stack) : Option ℕ :=
  let doubled := s.stacknleft * 2 % 2 ^ 64
  if doubled < s.stacknleft then none
  else
    let min := shellAlign (min ||| 128)
    some (if doubled < min then (doubled + min) % 2 ^ 64 else doubled)

/-- What `ckrealloc` makes of the block, which is the current one. -/
def realloc (newlen : ℕ) (s : Stack) (sp : ℕ) : Stack :=
  { mem := memcpy s.mem (sp + 8) s.stackp.space (min s.stackp.len newlen)
    stackp := ⟨sp, (newlen + 8) % 2 ^ 64 - 8⟩
    prev := s.prev
    stacknxt := sp + 8
    stacknleft := newlen
    sstrend := sp + 8 + newlen }

/-- The length that is copied is an `int`. -/
def oldlen (s : Stack) : ℕ := ((BitVec.ofNat 32 s.stacknleft).signExtend 64).toNat

/-- What is done with the space `stalloc` returned: the string is copied and the space is free. -/
def moved (newlen : ℕ) (s : Stack) (r : ℕ × Stack) : Stack :=
  { r.2 with
    mem := memcpy r.2.mem r.1 s.stacknxt s.oldlen, stacknxt := r.1,
    stacknleft := r.2.stacknleft + newlen }

def growstackblock (base : ℕ) (h : Heap) (min : ℕ) (s : Stack) : Option Stack :=
  (s.newlen min).bind fun newlen =>
    if s.atStart base then (h.ckrealloc ((newlen + 8) % 2 ^ 64)).map (s.realloc newlen)
    else (s.stalloc h newlen).map (s.moved newlen)

def growstackto (base : ℕ) (h : Heap) (len : ℕ) (s : Stack) : Option Stack :=
  if s.stacknleft < len then s.growstackblock base h len else some s

/-- `makestrspace`, without the pointer it returns: `p` relative to the string. -/
def makestrspace (base : ℕ) (h : Heap) (newlen p : ℕ) (s : Stack) : Option Stack :=
  s.growstackto base h ((p - s.stacknxt + newlen) % 2 ^ 64)

def growstackstr (base : ℕ) (h : Heap) (s : Stack) : Option Stack := s.growstackblock base h 0

def write (a : ℕ) (c : Char) (s : Stack) : Stack :=
  { s with mem := fun x => if x = a then c else s.mem x }

end Stack

/-! ### Sequences of calls -/

/-- A mark that was set and not popped, with the chain before and after it was set, the end of
what was reserved, and memory as it was. -/
structure Outstanding where
  mark : Stackmark
  before : List Block
  after : List Block
  top : ℕ
  mem : ℕ → Char

/-- The allocator and its outstanding marks, the last one first. -/
structure Conf where
  stack : Stack
  marks : List Outstanding

def Conf.initial (base : ℕ) (mem : ℕ → Char) : Conf := ⟨Stack.initial base mem, []⟩

inductive Op
  | stalloc (nbytes : ℕ)
  | stunalloc (p : ℕ)
  | pushstackmark (len : ℕ)
  | setstackmark
  | popstackmark
  | growstackstr
  | makestrspace (newlen p : ℕ)
  | write (a : ℕ) (c : Char)
  deriving Repr

namespace Conf

/-- The mark that was set and the stack behind it. -/
def push (c : Conf) (r : Stackmark × Stack) : Conf :=
  ⟨r.2, ⟨r.1, c.stack.chain, r.2.chain, r.2.stacknxt, c.stack.mem⟩ :: c.marks⟩

def pop (c : Conf) : Option Conf :=
  match c.marks with
  | [] => none
  | o :: marks => (c.stack.popstackmark o.mark).map fun s => ⟨s, marks⟩

def exec (base : ℕ) (h : Heap) (c : Conf) : Op → Option Conf
  | .stalloc nbytes => (c.stack.stalloc h nbytes).map fun r => ⟨r.2, c.marks⟩
  | .stunalloc p => some ⟨c.stack.stunalloc p, c.marks⟩
  | .pushstackmark len => (c.stack.pushstackmark h len).map c.push
  | .setstackmark => (c.stack.setstackmark base h).map c.push
  | .popstackmark => c.pop
  | .growstackstr => (c.stack.growstackstr base h).map fun s => ⟨s, c.marks⟩
  | .makestrspace newlen p => (c.stack.makestrspace base h newlen p).map fun s => ⟨s, c.marks⟩
  | .write a ch => some ⟨c.stack.write a ch, c.marks⟩

end Conf

end Bootsh.Memalloc
