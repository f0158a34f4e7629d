import Mathlib.Tactic.Common

/-!
A stream that can be read, backed up over, and added to at the point of reading.
-/

/-- `hist` is what was read and not put back, the latest first. The flag of what
is still to be read marks what was put back. -/
structure Tape (α : Type*) where
  hist : List α
  input : List (α × Bool)

namespace Tape

variable {α : Type*}

/-- Read the next element; past the end of the input that is `eof`. -/
def read (eof : α) (t : Tape α) : α × Tape α :=
  match t.input with
  | [] => (eof, { t with hist := eof :: t.hist })
  | (a, _) :: rest => (a, ⟨a :: t.hist, rest⟩)

/-- Put the last element read back in front of the input. -/
def unread (t : Tape α) : Tape α :=
  match t.hist with
  | [] => t
  | a :: hist => ⟨hist, (a, true) :: t.input⟩

/-- Put new elements in front of the input. -/
def insert (s : List α) (t : Tape α) : Tape α :=
  { t with input := s.map (·, false) ++ t.input }

/-- How many elements were put back and not read again. -/
def outstanding (t : Tape α) : ℕ := t.input.countP Prod.snd

/-- What was put back is read again. -/
theorem read_unread (eof : α) {t : Tape α} (h : t.hist ≠ []) :
    t.unread.read eof = (t.hist.head h, t) := by
  obtain ⟨hist, input⟩ := t
  cases hist with
  | nil => exact absurd rfl h
  | cons => rfl

end Tape
