import Mathlib.Tactic.Common

/-!
The first occurrence of a list in another one.
-/
namespace Occurrence

variable {α : Type*} {s t : List α} {k : ℕ}

/-- `t` occurs behind `b`. -/
def Occurs (t s b : List α) : Prop := ∃ a, s = b ++ t ++ a

theorem occurs_nil : Occurs t s [] ↔ t <+: s :=
  ⟨fun ⟨a, h⟩ => ⟨a, h.symm⟩, fun ⟨a, h⟩ => ⟨a, h.symm⟩⟩

theorem occurs_cons {c d : α} {b : List α} : Occurs t (c :: s) (d :: b) ↔ c = d ∧ Occurs t s b := by
  constructor
  · rintro ⟨a, h⟩
    obtain ⟨rfl, hs⟩ := List.cons.inj h
    exact ⟨rfl, a, hs⟩
  · rintro ⟨rfl, a, h⟩
    exact ⟨a, by rw [h]; rfl⟩

theorem occurs_length {b : List α} (h : Occurs t s b) : b.length + t.length ≤ s.length := by
  obtain ⟨a, rfl⟩ := h
  simp

/-- An occurrence is known by its place. -/
theorem occurs_eq {b b' : List α} (h : Occurs t s b) (h' : Occurs t s b')
    (hlen : b.length = b'.length) : b = b' := by
  obtain ⟨a, rfl⟩ := h
  obtain ⟨a', h'⟩ := h'
  rw [List.append_assoc, List.append_assoc] at h'
  exact List.append_inj_left h' hlen

variable [DecidableEq α]

/-- How many elements stand before the first occurrence of `t`. -/
def search (t : List α) : List α → Option ℕ
  | [] => if t = [] then some 0 else none
  | c :: s => if t <+: c :: s then some 0 else (search t s).map (· + 1)

theorem search_eq_none : search t s = none ↔ ∀ b, ¬ Occurs t s b := by
  induction s with
  | nil =>
    rw [search]
    split
    case isTrue h =>
      simp only [reduceCtorEq, false_iff, not_forall, not_not]
      exact ⟨[], [], by simp [h]⟩
    case isFalse h =>
      refine ⟨fun _ b hb => h (List.length_eq_zero_iff.mp ?_), fun _ => rfl⟩
      have := occurs_length hb
      rw [List.length_nil] at this
      omega
  | cons c s ih =>
    rw [search]
    split
    case isTrue h => simpa using ⟨[], occurs_nil.mpr h⟩
    case isFalse h =>
      rw [Option.map_eq_none_iff, ih]
      constructor
      · rintro hno (_ | ⟨d, b⟩) hb
        · exact h (occurs_nil.mp hb)
        · exact hno b (occurs_cons.mp hb).2
      · exact fun hno b hb => hno (c :: b) (occurs_cons.mpr ⟨rfl, hb⟩)

/-- What is found is the first occurrence. -/
theorem search_eq_some : search t s = some k ↔
    ∃ b, b.length = k ∧ Occurs t s b ∧ ∀ b', Occurs t s b' → k ≤ b'.length := by
  induction s generalizing k with
  | nil =>
    have hnil : ∀ b, Occurs t [] b → b = [] := by
      intro b hb
      have := occurs_length hb
      rw [List.length_nil] at this
      exact List.length_eq_zero_iff.mp (by omega)
    rw [search]
    split
    case isTrue h =>
      subst h
      constructor
      · rintro ⟨⟩
        exact ⟨[], rfl, ⟨[], rfl⟩, fun _ _ => Nat.zero_le _⟩
      · rintro ⟨b, rfl, hb, -⟩
        rw [hnil b hb, List.length_nil]
    case isFalse h =>
      simp only [reduceCtorEq, false_iff, not_exists, not_and]
      rintro b - hb
      obtain rfl := hnil b hb
      exact absurd (List.prefix_nil.mp (occurs_nil.mp hb)) h
  | cons c s ih =>
    rw [search]
    split
    case isTrue h =>
      constructor
      · rintro ⟨⟩
        exact ⟨[], rfl, occurs_nil.mpr h, fun _ _ => Nat.zero_le _⟩
      · rintro ⟨b, rfl, -, hfirst⟩
        exact congrArg some (Nat.le_zero.mp (hfirst [] (occurs_nil.mpr h))).symm
    case isFalse h =>
      rw [Option.map_eq_some_iff]
      constructor
      · rintro ⟨k, hk, rfl⟩
        obtain ⟨b, hlen, hb, hfirst⟩ := ih.mp hk
        refine ⟨c :: b, congrArg _ hlen, occurs_cons.mpr ⟨rfl, hb⟩, ?_⟩
        rintro (_ | ⟨d, b'⟩) hb'
        · exact absurd (occurs_nil.mp hb') h
        · exact Nat.succ_le_succ (hfirst b' (occurs_cons.mp hb').2)
      · rintro ⟨_ | ⟨d, b⟩, rfl, hb, hfirst⟩
        · exact absurd (occurs_nil.mp hb) h
        · obtain ⟨rfl, hrest⟩ := occurs_cons.mp hb
          refine ⟨b.length, ih.mpr ⟨b, rfl, hrest, fun b' hb' => ?_⟩, rfl⟩
          exact Nat.le_of_succ_le_succ (hfirst (c :: b') (occurs_cons.mpr ⟨rfl, hb'⟩))

end Occurrence
