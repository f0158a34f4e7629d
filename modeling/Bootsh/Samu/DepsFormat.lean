import Bootsh.Samu.Deps
import Mathlib.Data.List.Induction

/-!
The format of `.ninja_deps` as the comment in `deps.c` describes it, and what a log of
records says: the nodes in the order of their ids, and for each id the dependencies that
were recorded last.
-/
namespace Bootsh.Samu

open Bytes (Order)

inductive Rec
  | node (n : Path)
  | deps (id : ℕ) (mtime : BitVec 64) (ids : List ℕ)

/-- A path that can be told from the NUL bytes that pad it. -/
def Clean (n : Path) : Prop := ∃ c, n.getLast? = some c ∧ c ≠ 0

/-- The integers of the record of a list. -/
def depsWords (id : ℕ) (mtime : BitVec 64) (ids : List ℕ) : List ℕ :=
  id :: mtime.toNat % 2 ^ 32 :: mtime.toNat / 2 ^ 32 :: ids

/-- The bytes of a record before which `k` nodes were recorded. -/
inductive Encodes (o : Order) (k : ℕ) : Rec → List UInt8 → Prop
  | node {n : Path} {pad : ℕ} (hn : Clean n) (hsize : (n.length + pad + 4) % 4 = 0)
      (hmax : n.length + pad + 4 ≤ MAX_RECORD_SIZE) (hk : k < INT32_MAX) :
      Encodes o k (.node n) (word o (n.length + pad + 4) ++
        (n ++ List.replicate pad 0 ++ word o (2 ^ 32 - 1 - k)))
  | deps {id : ℕ} {mtime : BitVec 64} {ids : List ℕ} (hmax : 12 + 4 * ids.length ≤ MAX_RECORD_SIZE)
      (hid : id < 2 ^ 32) (hids : ∀ i ∈ ids, i < 2 ^ 32) :
      Encodes o k (.deps id mtime ids) (word o (2 ^ 31 + (12 + 4 * ids.length)) ++
        o.encodeAll 4 (depsWords id mtime ids))

/-- What the records of a log say. -/
structure Log where
  nodes : List Path
  lists : ℕ → Option (List Path × BitVec 64)

namespace Log

variable (usesDeps : Path → Bool)

def empty : Log := ⟨[], fun _ => none⟩

/-- The ids of a record are those of earlier nodes. The list of an output whose rule has no
`deps` any more does not matter. -/
def Valid (l : Log) : Rec → Prop
  | .node _ => True
  | .deps id _ ids =>
    ∃ n, l.nodes[id]? = some n ∧ (usesDeps n = true → ∀ i ∈ ids, i < l.nodes.length)

def apply (l : Log) : Rec → Log
  | .node n => { l with nodes := l.nodes ++ [n] }
  | .deps id mtime ids =>
    if (l.nodes[id]?).any usesDeps then
      { l with lists :=
          Function.update l.lists id (some (ids.filterMap fun i => l.nodes[i]?, mtime)) }
    else l

/-- The id of a node: that of its last record. -/
def idOf (nodes : List Path) (n : Path) : Option ℕ :=
  nodes.zipIdx.foldl (fun r (m, i) => if m = n then some i else r) none

/-- The list that is recorded for a node. -/
def listOf (l : Log) (n : Path) : Option (List Path × BitVec 64) := (idOf l.nodes n).bind l.lists

/-- The log that some records after a log make, and their bytes. -/
inductive Records (o : Order) : Log → List Rec → List UInt8 → Log → Prop
  | nil (l : Log) : Records o l [] [] l
  | cons {l l' : Log} {r : Rec} {rs : List Rec} {bs bs' : List UInt8}
      (hr : Encodes o l.nodes.length r bs) (hvalid : l.Valid usesDeps r)
      (hrs : Records o (l.apply usesDeps r) rs bs' l') : Records o l (r :: rs) (bs ++ bs') l'

end Log

section Ids

open Log

variable {nodes : List Path} {n m : Path} {i : ℕ}

@[simp] theorem idOf_nil (n : Path) : idOf [] n = none := rfl

theorem idOf_append_singleton (nodes : List Path) (m n : Path) :
    idOf (nodes ++ [m]) n = if m = n then some nodes.length else idOf nodes n := by
  simp [idOf, List.zipIdx_append]

theorem idOf_eq_some (h : idOf nodes n = some i) : nodes[i]? = some n := by
  induction nodes using List.reverseRecOn with
  | nil => cases h
  | append_singleton nodes m ih =>
    rw [idOf_append_singleton] at h
    split at h
    case isTrue hm =>
      cases h
      rw [List.getElem?_concat_length, hm]
    case isFalse =>
      have hi := ih h
      rw [List.getElem?_append_left (List.getElem?_eq_some_iff.mp hi).1, hi]

theorem idOf_lt (h : idOf nodes n = some i) : i < nodes.length :=
  (List.getElem?_eq_some_iff.mp (idOf_eq_some h)).1

theorem idOf_isSome : (idOf nodes n).isSome ↔ n ∈ nodes := by
  induction nodes using List.reverseRecOn with
  | nil => simp
  | append_singleton nodes m ih =>
    rw [idOf_append_singleton, List.mem_append, List.mem_singleton]
    by_cases hm : m = n
    · simp [hm]
    · have hm' : n ≠ m := fun h => hm h.symm
      simp [hm, hm', ih]

theorem idOf_eq_none : idOf nodes n = none ↔ n ∉ nodes := by
  rw [← idOf_isSome, Option.not_isSome_iff_eq_none]

theorem exists_idOf (h : n ∈ nodes) : ∃ i, idOf nodes n = some i :=
  Option.isSome_iff_exists.mp (idOf_isSome.mpr h)

/-- The id is that of the last record. -/
theorem le_of_idOf {j : ℕ} (h : idOf nodes n = some i) (hj : nodes[j]? = some n) : j ≤ i := by
  induction nodes using List.reverseRecOn with
  | nil => cases h
  | append_singleton nodes m ih =>
    rw [idOf_append_singleton] at h
    have hlt := (List.getElem?_eq_some_iff.mp hj).1
    rw [List.length_append, List.length_singleton] at hlt
    split at h
    case isTrue =>
      cases h
      omega
    case isFalse hm =>
      by_cases hlast : j = nodes.length
      · rw [hlast, List.getElem?_concat_length] at hj
        exact absurd (Option.some.inj hj) hm
      · rw [List.getElem?_append_left (by omega)] at hj
        exact ih h hj

theorem mem_of_idOf (h : idOf nodes n = some i) : n ∈ nodes :=
  List.mem_of_getElem? (idOf_eq_some h)

end Ids

namespace Log.Records

variable {o : Order} {usesDeps : Path → Bool} {l l₁ l₂ : Log} {rs rs' : List Rec}
  {bs bs' : List UInt8}

theorem append (h : Records usesDeps o l rs bs l₁) (h' : Records usesDeps o l₁ rs' bs' l₂) :
    Records usesDeps o l (rs ++ rs') (bs ++ bs') l₂ := by
  induction h with
  | nil => exact h'
  | cons hr hvalid _ ih =>
    rw [List.append_assoc]
    exact .cons hr hvalid (ih h')

theorem single {r : Rec} (hr : Encodes o l.nodes.length r bs) (hvalid : l.Valid usesDeps r) :
    Records usesDeps o l [r] bs (l.apply usesDeps r) := by
  rw [← List.append_nil bs]
  exact .cons hr hvalid (.nil _)

end Log.Records

end Bootsh.Samu
