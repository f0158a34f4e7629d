import Mathlib.Tactic.Common
import Mathlib.Data.List.Nodup

/-!
Lists whose elements have keys, which need not be distinct: an element takes the place of the
first one with its key.
-/
namespace Upsert

variable {α κ : Type*} [DecidableEq κ] {key : α → κ} {x z : α} {l : List α}

def upsert (key : α → κ) (x : α) : List α → List α
  | [] => [x]
  | y :: l => if key y = key x then x :: l else y :: upsert key x l

/-- The elements with the key `c`. -/
def keyed (key : α → κ) (c : κ) (l : List α) : List α := l.filter fun y => key y = c

theorem mem_keyed {c : κ} : z ∈ keyed key c l ↔ z ∈ l ∧ key z = c := by
  simp [keyed]

theorem keyed_cons_self {y : α} : keyed key (key y) (y :: l) = y :: keyed key (key y) l :=
  List.filter_cons_of_pos (decide_eq_true rfl)

theorem keyed_cons_ne {c : κ} {y : α} (h : key y ≠ c) : keyed key c (y :: l) = keyed key c l :=
  List.filter_cons_of_neg (by simpa using h)

/-- What stands in the list afterwards: the element, all of the other keys, and of its own key
all but the first. -/
theorem mem_upsert : z ∈ upsert key x l ↔
    z = x ∨ z ∈ l ∧ key z ≠ key x ∨ z ∈ (keyed key (key x) l).tail := by
  induction l with
  | nil => simp [upsert, keyed]
  | cons y l ih =>
    rw [upsert]
    split
    case isTrue hy =>
      rw [← hy, keyed_cons_self, List.tail_cons, mem_keyed, List.mem_cons, List.mem_cons]
      by_cases hz : key z = key y
      · simp [hz]
      · have hne : z ≠ y := fun h => hz (congrArg key h)
        simp [hz, hne]
    case isFalse hy =>
      rw [keyed_cons_ne hy, List.mem_cons, List.mem_cons, ih]
      constructor
      · rintro (rfl | h | ⟨h, hne⟩ | h)
        · exact .inr (.inl ⟨.inl rfl, hy⟩)
        · exact .inl h
        · exact .inr (.inl ⟨.inr h, hne⟩)
        · exact .inr (.inr h)
      · rintro (h | ⟨rfl | h, hne⟩ | h)
        · exact .inr (.inl h)
        · exact .inl rfl
        · exact .inr (.inr (.inl ⟨h, hne⟩))
        · exact .inr (.inr (.inr h))

theorem keyed_upsert_ne {c : κ} (hc : key x ≠ c) : keyed key c (upsert key x l) = keyed key c l := by
  induction l with
  | nil => simp [upsert, keyed, hc]
  | cons y l ih =>
    rw [upsert]
    split
    case isTrue hy =>
      rw [keyed_cons_ne hc, keyed_cons_ne (hy ▸ hc)]
    case isFalse =>
      by_cases hy : key y = c
      · subst hy
        rw [keyed_cons_self, keyed_cons_self, ih]
      · rw [keyed_cons_ne hy, keyed_cons_ne hy, ih]

/-- The same for several elements with different keys. -/
theorem mem_foldl_upsert {xs : List α} (h : (xs.map key).Nodup) :
    z ∈ xs.foldl (fun l x => upsert key x l) l ↔
      z ∈ xs ∨ z ∈ l ∧ key z ∉ xs.map key ∨ ∃ x ∈ xs, z ∈ (keyed key (key x) l).tail := by
  induction xs generalizing l with
  | nil => simp
  | cons x xs ih =>
    rw [List.map_cons, List.nodup_cons] at h
    obtain ⟨hx, hxs⟩ := h
    have hkeyed : ∀ y ∈ xs, keyed key (key y) (upsert key x l) = keyed key (key y) l := by
      intro y hy
      apply keyed_upsert_ne
      intro heq
      exact hx (heq ▸ List.mem_map_of_mem hy)
    have htails : (∃ y ∈ xs, z ∈ (keyed key (key y) (upsert key x l)).tail) ↔
        ∃ y ∈ xs, z ∈ (keyed key (key y) l).tail := by
      constructor <;> rintro ⟨y, hy, hz⟩
      · exact ⟨y, hy, hkeyed y hy ▸ hz⟩
      · exact ⟨y, hy, (hkeyed y hy).symm ▸ hz⟩
    rw [List.foldl_cons, ih hxs, htails, mem_upsert, List.mem_cons, List.map_cons, List.mem_cons]
    constructor
    · rintro (hz | ⟨rfl | ⟨hz, hne⟩ | hz, hno⟩ | ⟨y, hy, hz⟩)
      · exact .inl (.inr hz)
      · exact .inl (.inl rfl)
      · exact .inr (.inl ⟨hz, by simp [hne, hno]⟩)
      · exact .inr (.inr ⟨x, List.mem_cons_self, hz⟩)
      · exact .inr (.inr ⟨y, List.mem_cons_of_mem _ hy, hz⟩)
    · rintro ((rfl | hz) | ⟨hz, hno⟩ | ⟨y, hy, hz⟩)
      · exact .inr (.inl ⟨.inl rfl, hx⟩)
      · exact .inl hz
      · rw [not_or] at hno
        exact .inr (.inl ⟨.inr (.inl ⟨hz, hno.1⟩), hno.2⟩)
      · rcases List.mem_cons.1 hy with rfl | hy
        · have hkey : key z = key y := (mem_keyed.1 (List.mem_of_mem_tail hz)).2
          exact .inr (.inl ⟨.inr (.inr hz), hkey ▸ hx⟩)
        · exact .inr (.inr ⟨y, hy, hz⟩)

/-! ### Lists of keys and values -/

section

variable {β γ : Type*} {m : List (κ × β)} {k k' : κ} {v v' : β}

theorem lookup_upsert_self : (upsert Prod.fst (k, v) m).lookup k = some v := by
  induction m with
  | nil => simp [upsert]
  | cons y m ih =>
    rw [upsert]
    split
    · rw [List.lookup_cons, beq_self_eq_true]
    case isFalse h =>
      obtain ⟨k', v'⟩ := y
      rw [List.lookup_cons, beq_false_of_ne (Ne.symm h)]
      exact ih

theorem lookup_upsert_ne (hne : k' ≠ k) : (upsert Prod.fst (k, v) m).lookup k' = m.lookup k' := by
  induction m with
  | nil => rw [upsert, List.lookup_cons, beq_false_of_ne hne]
  | cons y m ih =>
    obtain ⟨k₁, v₁⟩ := y
    rw [upsert]
    split
    case isTrue h =>
      obtain rfl : k₁ = k := h
      rw [List.lookup_cons, List.lookup_cons, beq_false_of_ne hne]
    case isFalse h => rw [List.lookup_cons, List.lookup_cons, ih]

theorem upsert_upsert : upsert Prod.fst (k, v') (upsert Prod.fst (k, v) m) =
    upsert Prod.fst (k, v') m := by
  induction m with
  | nil => simp [upsert]
  | cons y m ih =>
    simp only [upsert]
    split
    · simp [upsert]
    case isFalse h => rw [upsert, if_neg h, ih]

theorem upsert_of_lookup (h : m.lookup k = some v) : upsert Prod.fst (k, v) m = m := by
  induction m with
  | nil => cases h
  | cons y m ih =>
    obtain ⟨k', v'⟩ := y
    rw [upsert]
    split
    case isTrue hk =>
      obtain rfl : k' = k := hk
      rw [List.lookup_cons, beq_self_eq_true] at h
      cases h
      rfl
    case isFalse hk =>
      rw [List.lookup_cons, beq_false_of_ne (Ne.symm hk)] at h
      rw [ih h]

variable (f : β → γ)

theorem map_upsert : (upsert Prod.fst (k, v) m).map (Prod.map id f) =
    upsert Prod.fst (k, f v) (m.map (Prod.map id f)) := by
  induction m with
  | nil => rfl
  | cons y m ih =>
    simp only [upsert, List.map_cons]
    split
    case isTrue h => rw [if_pos (by simpa using h)]; rfl
    case isFalse h => rw [if_neg (by simpa using h), ← ih]; rfl

theorem lookup_map : (m.map (Prod.map id f)).lookup k = (m.lookup k).map f := by
  induction m with
  | nil => rfl
  | cons y m ih =>
    obtain ⟨k', v'⟩ := y
    rw [List.map_cons, List.lookup_cons, Prod.map, List.lookup_cons]
    dsimp only [id]
    split <;> simp [ih]

end

end Upsert
