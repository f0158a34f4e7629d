import Mathlib.Tactic.Common
import Mathlib.Logic.Function.Basic

/-!
Dynamic scoping, twice: with a stack of frames that hold the local bindings, and
with one current binding for each key and a log of the bindings to be restored.
-/
namespace Binding

variable {K V : Type*} [DecidableEq K]

/-! ### Deep binding -/

/-- The frames, the innermost first, over the global bindings. -/
structure Deep (K V : Type*) where
  frames : List (K → Option V)
  base : K → V

namespace Deep

def lookupIn (base : K → V) (k : K) : List (K → Option V) → V
  | [] => base k
  | f :: fs => (f k).getD (lookupIn base k fs)

def lookup (d : Deep K V) (k : K) : V := lookupIn d.base k d.frames

def assignIn (k : K) (v : V) : List (K → Option V) → (K → V) → Deep K V
  | [], base => ⟨[], Function.update base k v⟩
  | f :: fs, base =>
    if (f k).isSome then ⟨Function.update f k (some v) :: fs, base⟩
    else
      let d := assignIn k v fs base
      ⟨f :: d.frames, d.base⟩

/-- Assign to the innermost binding. -/
def assign (d : Deep K V) (k : K) (v : V) : Deep K V := assignIn k v d.frames d.base

/-- Make `k` local to the innermost frame, with the value that it has. -/
def declare (d : Deep K V) (k : K) : Deep K V :=
  match d.frames with
  | [] => d
  | f :: fs => { d with frames := Function.update f k (some (d.lookup k)) :: fs }

def push (d : Deep K V) : Deep K V := { d with frames := (fun _ => none) :: d.frames }

def pop (d : Deep K V) : Deep K V := { d with frames := d.frames.tail }

variable {k k' : K} {v : V}

theorem lookup_assign (d : Deep K V) : (d.assign k v).lookup k' = if k' = k then v else d.lookup k' := by
  obtain ⟨frames, base⟩ := d
  unfold lookup assign
  induction frames with
  | nil => simp [assignIn, lookupIn, Function.update_apply]
  | cons f fs ih =>
    rw [assignIn]
    split_ifs with hf hk hk
    · simp [lookupIn, hk]
    · simp [lookupIn, hk]
    · subst hk
      rw [if_pos rfl] at ih
      simp only [lookupIn, Option.not_isSome_iff_eq_none.1 hf, Option.getD_none, ih]
    · rw [if_neg hk] at ih
      simp only [lookupIn, ih]

@[simp] theorem lookup_declare (d : Deep K V) : (d.declare k).lookup k' = d.lookup k' := by
  obtain ⟨frames, base⟩ := d
  cases frames with
  | nil => rfl
  | cons f fs =>
    by_cases hk : k' = k
    · subst hk
      simp [declare, lookup, lookupIn]
    · simp [declare, lookup, lookupIn, hk]

omit [DecidableEq K] in
@[simp] theorem lookup_push (d : Deep K V) : d.push.lookup k' = d.lookup k' := rfl

end Deep

/-! ### Shallow binding -/

/-- The current bindings, and for each frame what its local keys were bound to,
the latest entry first. -/
structure Shallow (K V : Type*) where
  cur : K → V
  logs : List (List (K × V))

namespace Shallow

/-- Undo the entries of a log. -/
def restore : List (K × V) → (K → V) → K → V
  | [], cur => cur
  | p :: l, cur => restore l (Function.update cur p.1 p.2)

def assign (s : Shallow K V) (k : K) (v : V) : Shallow K V :=
  { s with cur := Function.update s.cur k v }

/-- Log the binding of `k`. -/
def save (s : Shallow K V) (k : K) : Shallow K V :=
  match s.logs with
  | [] => s
  | l :: ls => { s with logs := ((k, s.cur k) :: l) :: ls }

def push (s : Shallow K V) : Shallow K V := { s with logs := [] :: s.logs }

def pop (s : Shallow K V) : Shallow K V :=
  match s.logs with
  | [] => s
  | l :: ls => ⟨restore l s.cur, ls⟩

end Shallow

/-! ### Shallow binding refines deep binding -/

open Shallow Deep

variable {k k' : K} {v : V} {cur base : K → V} {l : List (K × V)} {ls : List (List (K × V))}
  {f : K → Option V} {fs : List (K → Option V)}

theorem restore_congr {cur' : K → V} (h : ∀ k, k ∉ l.map Prod.fst → cur k = cur' k) :
    restore l cur = restore l cur' := by
  induction l generalizing cur cur' with
  | nil => exact funext fun k => h k (by simp)
  | cons p l ih =>
    apply ih
    intro k hk
    by_cases hp : k = p.1
    · rw [hp, Function.update_self, Function.update_self]
    · rw [Function.update_of_ne hp, Function.update_of_ne hp]
      exact h k (by simp [hp, hk])

theorem restore_of_not_mem (h : k ∉ l.map Prod.fst) : restore l cur k = cur k := by
  induction l generalizing cur with
  | nil => rfl
  | cons p l ih =>
    obtain ⟨hp, hl⟩ := not_or.1 (by simpa only [List.map_cons, List.mem_cons] using h)
    rw [restore, ih hl, Function.update_of_ne hp]

theorem restore_update_of_mem (h : k ∈ l.map Prod.fst) :
    restore l (Function.update cur k v) = restore l cur := by
  apply restore_congr
  intro j hj
  have hjk : j ≠ k := by
    rintro rfl
    exact hj h
  exact Function.update_of_ne hjk ..

theorem restore_update_of_not_mem (h : k ∉ l.map Prod.fst) :
    restore l (Function.update cur k v) = Function.update (restore l cur) k v := by
  induction l generalizing cur with
  | nil => rfl
  | cons p l ih =>
    obtain ⟨hp, hl⟩ := not_or.1 (by simpa only [List.map_cons, List.mem_cons] using h)
    rw [restore, restore, ← ih hl, Function.update_comm hp]

/-- Frame by frame, the log restores what the frame hides, and nothing else. -/
def RefinesIn (base : K → V) :
    (K → V) → List (List (K × V)) → List (K → Option V) → Prop
  | cur, [], [] => cur = base
  | cur, l :: ls, f :: fs =>
    (∀ k, (f k).isSome ↔ k ∈ l.map Prod.fst) ∧ (∀ k v, f k = some v → cur k = v) ∧
      RefinesIn base (restore l cur) ls fs
  | _, _, _ => False

def Refines (s : Shallow K V) (d : Deep K V) : Prop := RefinesIn d.base s.cur s.logs d.frames

theorem RefinesIn.lookup (h : RefinesIn base cur ls fs) (k : K) : cur k = lookupIn base k fs := by
  induction fs generalizing cur ls with
  | nil =>
    cases ls with
    | nil => exact congrFun h k
    | cons l ls => exact h.elim
  | cons f fs ih =>
    cases ls with
    | nil => exact h.elim
    | cons l ls =>
      obtain ⟨hkeys, hcur, hrest⟩ := h
      rw [lookupIn]
      cases hf : f k with
      | some v => exact hcur k v hf
      | none =>
        have hk : k ∉ l.map Prod.fst := by
          rw [← hkeys, hf]
          simp
        rw [Option.getD_none, ← ih hrest, restore_of_not_mem hk]

theorem Refines.lookup {s : Shallow K V} {d : Deep K V} (h : Refines s d) (k : K) :
    s.cur k = d.lookup k := RefinesIn.lookup h k

theorem RefinesIn.assign (h : RefinesIn base cur ls fs) (k : K) (v : V) :
    RefinesIn (assignIn k v fs base).base (Function.update cur k v) ls
      (assignIn k v fs base).frames := by
  induction fs generalizing cur ls with
  | nil =>
    cases ls with
    | nil => exact congrArg (Function.update · k v) h
    | cons l ls => exact h.elim
  | cons f fs ih =>
    cases ls with
    | nil => exact h.elim
    | cons l ls =>
      obtain ⟨hkeys, hcur, hrest⟩ := h
      rw [assignIn]
      split_ifs with hf
      · refine ⟨?_, ?_, ?_⟩
        · intro j
          rw [← hkeys]
          by_cases hj : j = k
          · simp [hj, hf]
          · rw [Function.update_of_ne hj]
        · intro j w hw
          by_cases hj : j = k
          · subst hj
            rw [Function.update_self] at hw ⊢
            exact Option.some.inj hw
          · rw [Function.update_of_ne hj] at hw ⊢
            exact hcur j w hw
        · rw [restore_update_of_mem ((hkeys k).1 hf)]
          exact hrest
      · have hk : k ∉ l.map Prod.fst := fun hk => hf ((hkeys k).2 hk)
        refine ⟨hkeys, ?_, ?_⟩
        · intro j w hw
          have hj : j ≠ k := by
            rintro rfl
            simp [hw] at hf
          rw [Function.update_of_ne hj]
          exact hcur j w hw
        · rw [restore_update_of_not_mem hk]
          exact ih hrest

theorem Refines.assign {s : Shallow K V} {d : Deep K V} (h : Refines s d) (k : K) (v : V) :
    Refines (s.assign k v) (d.assign k v) := RefinesIn.assign h k v

theorem Refines.save {s : Shallow K V} {d : Deep K V} (h : Refines s d) (k : K) :
    Refines (s.save k) (d.declare k) := by
  obtain ⟨cur, logs⟩ := s
  obtain ⟨frames, base⟩ := d
  have hlookup := h.lookup k
  cases logs with
  | nil =>
    cases frames with
    | nil => exact h
    | cons f fs => exact h.elim
  | cons l ls =>
    cases frames with
    | nil => exact h.elim
    | cons f fs =>
      obtain ⟨hkeys, hcur, hrest⟩ := h
      refine ⟨?_, ?_, ?_⟩
      · intro j
        by_cases hj : j = k
        · simp [hj]
        · simpa [Function.update_of_ne hj, hj] using hkeys j
      · intro j w hw
        by_cases hj : j = k
        · subst hj
          rw [Function.update_self] at hw
          exact hlookup.trans (Option.some.inj hw)
        · rw [Function.update_of_ne hj] at hw
          exact hcur j w hw
      · change RefinesIn base (restore l (Function.update cur k (cur k))) ls fs
        rwa [Function.update_eq_self]

theorem Refines.push {s : Shallow K V} {d : Deep K V} (h : Refines s d) :
    Refines s.push d.push := ⟨by simp, by simp, h⟩

theorem Refines.pop {s : Shallow K V} {d : Deep K V} (h : Refines s d) : Refines s.pop d.pop := by
  obtain ⟨cur, logs⟩ := s
  obtain ⟨frames, base⟩ := d
  cases logs with
  | nil =>
    cases frames with
    | nil => exact h
    | cons f fs => exact h.elim
  | cons l ls =>
    cases frames with
    | nil => exact h.elim
    | cons f fs => exact h.2.2

end Binding
