import Mathlib.Data.List.TakeWhile
import Mathlib.Data.List.Infix
import Mathlib.Tactic.Common

/-!
Maximal munch: the longest prefix of an input that belongs to a set of words.
-/
namespace Munch

variable {α : Type*}

/-- `tok` is the longest prefix of `s` satisfying `P`, and `rest` is what follows it. -/
structure Longest (P : List α → Prop) (s tok rest : List α) : Prop where
  split : s = tok ++ rest
  mem : P tok
  longest : ∀ tok', P tok' → tok' <+: s → tok'.length ≤ tok.length

theorem Longest.unique {P : List α → Prop} {s tok rest tok' rest' : List α}
    (h : Longest P s tok rest) (h' : Longest P s tok' rest') : tok = tok' ∧ rest = rest' := by
  have hp : tok <+: s := ⟨rest, h.split.symm⟩
  have hp' : tok' <+: s := ⟨rest', h'.split.symm⟩
  have hlen : tok.length = tok'.length :=
    le_antisymm (h'.longest _ h.mem hp) (h.longest _ h'.mem hp')
  have htok : tok = tok' := (List.prefix_of_prefix_length_le hp hp' hlen.le).eq_of_length hlen
  refine ⟨htok, ?_⟩
  have hs := h.split.symm.trans h'.split
  rw [htok] at hs
  exact List.append_cancel_left hs

/-- A prefix within a class of letters is a prefix of what `takeWhile` takes. -/
theorem prefix_takeWhile {p : α → Bool} {t s : List α} (h : t <+: s) (hp : ∀ c ∈ t, p c) :
    t <+: s.takeWhile p := by
  obtain ⟨r, rfl⟩ := h
  rw [List.takeWhile_append_of_pos hp]
  exact List.prefix_append _ _

theorem takeWhile_stop {p : α → Bool} {v t : List α} (hv : ∀ c ∈ v, p c)
    (ht : ∀ c, t.head? = some c → p c = false) : (v ++ t).takeWhile p = v := by
  rw [List.takeWhile_append_of_pos hv]
  cases t with
  | nil => simp
  | cons c t => simp [ht c rfl]

theorem dropWhile_stop {p : α → Bool} {v t : List α} (hv : ∀ c ∈ v, p c)
    (ht : ∀ c, t.head? = some c → p c = false) : (v ++ t).dropWhile p = t := by
  rw [List.dropWhile_append_of_pos hv]
  cases t with
  | nil => rfl
  | cons c t => simp [ht c rfl]

/-- What stands behind the letters that `takeWhile` takes. -/
theorem head?_dropWhile {p : α → Bool} {s : List α} {c : α}
    (h : (s.dropWhile p).head? = some c) : p c = false := by
  have := List.head?_dropWhile_not p s
  rw [h] at this
  simpa using this

/-- A word of the form `a` then letters of a class is munched by `takeWhile`. -/
theorem longest_cons_takeWhile {P : List α → Prop} (p : α → Bool) {a : α} {s : List α}
    (hmem : P (a :: s.takeWhile p)) (hP : ∀ t, P (a :: t) → t <+: s → ∀ c ∈ t, p c) :
    Longest P (a :: s) (a :: s.takeWhile p) (s.dropWhile p) := by
  refine ⟨by simp, hmem, ?_⟩
  intro tok' htok' hpre
  cases tok' with
  | nil => simp
  | cons b t =>
    obtain ⟨rfl, ht⟩ := List.cons_prefix_cons.mp hpre
    simpa using (prefix_takeWhile ht (hP t htok' ht)).length_le

end Munch
