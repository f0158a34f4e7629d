import Mathlib.Algebra.Group.Int.Defs
import Mathlib.Algebra.GroupWithZero.Nat
import Mathlib.Tactic.Common

/-!
Spans of memory, rounding up to an alignment, and the spans a bump pointer hands out: each one
begins where the last one ended.
-/
namespace Tile

/-- `n` rounded up to a multiple of `m`. -/
def roundUp (m n : ℕ) : ℕ := (n + (m - 1)) / m * m

section

variable {m n : ℕ}

theorem dvd_roundUp : m ∣ roundUp m n := Nat.dvd_mul_left m _

theorem le_roundUp (hm : 0 < m) : n ≤ roundUp m n := by
  unfold roundUp
  have hdiv := Nat.div_add_mod (n + (m - 1)) m
  have hmod := Nat.mod_lt (n + (m - 1)) hm
  rw [Nat.mul_comm] at hdiv
  omega

theorem roundUp_lt (hm : 0 < m) : roundUp m n < n + m := by
  unfold roundUp
  have hle := Nat.div_mul_le_self (n + (m - 1)) m
  omega

end

structure Span where
  start : ℕ
  len : ℕ
  deriving DecidableEq, Repr

namespace Span

variable {s t a b : Span}

def stop (s : Span) : ℕ := s.start + s.len

def Disjoint (s t : Span) : Prop := s.stop ≤ t.start ∨ t.stop ≤ s.start

def Within (s t : Span) : Prop := t.start ≤ s.start ∧ s.stop ≤ t.stop

theorem Disjoint.symm (h : s.Disjoint t) : t.Disjoint s := Or.symm h

theorem Within.trans (hs : s.Within t) (ht : t.Within a) : s.Within a :=
  ⟨Nat.le_trans ht.1 hs.1, Nat.le_trans hs.2 ht.2⟩

theorem Disjoint.mono (h : a.Disjoint b) (hs : s.Within a) (ht : t.Within b) : s.Disjoint t := by
  obtain ⟨hs, hs'⟩ := hs
  obtain ⟨ht, ht'⟩ := ht
  rcases h with h | h
  · exact Or.inl (by omega)
  · exact Or.inr (by omega)

end Span

/-- Spans of the given lengths, one after another from `b` on. -/
def tile (b : ℕ) : List ℕ → List Span
  | [] => []
  | n :: ns => ⟨b, n⟩ :: tile (b + n) ns

section

variable {b : ℕ} {ns ms : List ℕ}

@[simp] theorem tile_nil : tile b [] = [] := rfl

@[simp] theorem tile_cons {n : ℕ} : tile b (n :: ns) = ⟨b, n⟩ :: tile (b + n) ns := rfl

theorem tile_append : tile b (ns ++ ms) = tile b ns ++ tile (b + ns.sum) ms := by
  induction ns generalizing b with
  | nil => simp
  | cons n ns ih => simp [ih, Nat.add_assoc]

theorem tile_within {s : Span} (hs : s ∈ tile b ns) : s.Within ⟨b, ns.sum⟩ := by
  induction ns generalizing b with
  | nil => cases hs
  | cons n ns ih =>
    rw [tile_cons, List.mem_cons] at hs
    unfold Span.Within Span.stop
    rw [List.sum_cons]
    rcases hs with rfl | hs
    · exact ⟨Nat.le_refl b, by dsimp only; omega⟩
    · obtain ⟨hstart, hstop⟩ := ih hs
      unfold Span.stop at hstop
      dsimp only at hstart hstop ⊢
      exact ⟨by omega, by omega⟩

theorem tile_pairwise : (tile b ns).Pairwise Span.Disjoint := by
  induction ns generalizing b with
  | nil => exact List.Pairwise.nil
  | cons n ns ih =>
    refine List.Pairwise.cons ?_ ih
    intro s hs
    exact Or.inl (tile_within hs).1

end

end Tile
