import Bootsh.Samu.Env
import Mathlib.Data.Nat.Fib.Basic
import Mathlib.Order.Defs.LinearOrder

/-!
The balanced trees of `tree.c`. Keys are compared by `strcmp`, which is a linear order.
-/
namespace Bootsh.Samu

/-- A `struct treenode *`. -/
inductive Treenode (κ α : Type)
  | null
  | node (key : κ) (value : α) (left right : Treenode κ α) (height : ℕ)

namespace Treenode

variable {κ α : Type}

def isNull : Treenode κ α → Bool
  | null => true
  | node .. => false

def height : Treenode κ α → ℕ
  | null => 0
  | node _ _ _ _ h => h

/-- `n->child[dir]` -/
def child (dir : Bool) : Treenode κ α → Treenode κ α
  | null => null
  | node _ _ l r _ => if dir then r else l

def withChild : Treenode κ α → Bool → Treenode κ α → Treenode κ α
  | null, _, _ => null
  | node k v l r h, dir, c => if dir then node k v l c h else node k v c r h

def withHeight (h : ℕ) : Treenode κ α → Treenode κ α
  | null => null
  | node k v l r _ => node k v l r h

/-- `rot`, with what it stores in `*p`; none where it would follow a null pointer. -/
def rot (dir : Bool) (x : Treenode κ α) : Option (Treenode κ α × ℤ) :=
  let y := x.child dir
  let z := y.child !dir
  let hx := x.height
  let hz := z.height
  if y.isNull then none
  else if (y.child dir).height < hz then
    let x := (x.withChild dir (z.child !dir)).withHeight hz
    let y := (y.withChild (!dir) (z.child dir)).withHeight hz
    let z := ((z.withChild (!dir) x).withChild dir y).withHeight (hz + 1)
    some (z, (hz + 1 : ℤ) - hx)
  else
    let x := (x.withChild dir z).withHeight (hz + 1)
    let y := (y.withChild (!dir) x).withHeight (hz + 2)
    some (y, (hz + 2 : ℤ) - hx)

/-- `balance`. The difference of the heights is compared as an `unsigned`. -/
def balance (n : Treenode κ α) : Option (Treenode κ α × ℤ) :=
  let h0 := (n.child false).height
  let h1 := (n.child true).height
  if ((h0 : ℤ) - h1 + 1) % 2 ^ 32 < 3 then
    let h := if h0 < h1 then h1 + 1 else h0 + 1
    some (n.withHeight h, (h : ℤ) - n.height)
  else n.rot (decide (h0 < h1))

section

variable [LinearOrder κ] (key : κ)

def treefind : Treenode κ α → Option α
  | null => none
  | node k v l r _ =>
    if key = k then some v else if k < key then r.treefind else l.treefind

end

/-- An entry of the array `a` of `treeinsert`: a child of a node. -/
structure Frame (κ α : Type) where
  node : Treenode κ α
  dir : Bool

def Frame.plug (f : Frame κ α) (c : Treenode κ α) : Treenode κ α := f.node.withChild f.dir c

/-- The tree around the last entry, with the given subtree there. -/
def reassemble (c : Treenode κ α) : List (Frame κ α) → Treenode κ α
  | [] => c
  | f :: fs => reassemble (f.plug c) fs

/-- The descent: the subtree with the key or the empty one, and the entries, the last one first. -/
def path [LinearOrder κ] (key : κ) : Treenode κ α → List (Frame κ α) →
    Treenode κ α × List (Frame κ α)
  | null, fs => (null, fs)
  | node k v l r h, fs =>
    if key = k then (node k v l r h, fs)
    else if k < key then path key r (⟨node k v l r h, true⟩ :: fs)
    else path key l (⟨node k v l r h, false⟩ :: fs)

/-- The loop that rebalances the ancestors, until a height stays. -/
def climb : List (Frame κ α) → Treenode κ α → Option (Treenode κ α)
  | [], t => some t
  | f :: fs, t => (f.plug t).balance.bind fun r =>
    if r.2 = 0 then some (reassemble r.1 fs) else climb fs r.1

/-- `MAXH`, for pointers of eight bytes. -/
def maxh : ℕ := 8 * 8 * 3 / 2

/-- `treeinsert`, with the old value; none where the array would overflow. -/
def treeinsert [LinearOrder κ] (key : κ) (value : α) (root : Treenode κ α) :
    Option (Option α × Treenode κ α) :=
  let p := path key root []
  if maxh < p.2.length + 1 then none
  else match p.1 with
    | node k v l r h => some (some v, reassemble (node k value l r h) p.2)
    | null => (climb p.2 (node key value null null 1)).map fun t => (none, t)

/-! ### Balance -/

def Balanced : Treenode κ α → Prop
  | null => True
  | node _ _ l r h => l.Balanced ∧ r.Balanced ∧ l.height ≤ r.height + 1 ∧
    r.height ≤ l.height + 1 ∧ h = max l.height r.height + 1

/-- The keys and values in order. -/
def toList : Treenode κ α → List (κ × α)
  | null => []
  | node k v l r _ => l.toList ++ (k, v) :: r.toList

end Treenode

end Bootsh.Samu
