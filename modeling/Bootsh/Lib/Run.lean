import Mathlib.Tactic.Common

/-!
Runs of a machine that reads one input and gives one output at every step, their
invariants, and the simulation of one machine by another. `ok` says which steps
are taken in which states.
-/
namespace Run

variable {σ τ ι ο : Type*} (step : σ → ι → ο × σ)

/-- The outputs and the last state of a run. -/
def run : σ → List ι → List ο × σ
  | s, [] => ([], s)
  | s, i :: is => ((step s i).1 :: (run (step s i).2 is).1, (run (step s i).2 is).2)

/-- Every step of the run is `ok` in the state before it. -/
def Along (ok : σ → ι → Prop) : σ → List ι → Prop
  | _, [] => True
  | s, i :: is => ok s i ∧ Along ok (step s i).2 is

instance Along.decidable (ok : σ → ι → Prop) [∀ s i, Decidable (ok s i)] :
    ∀ (s : σ) (is : List ι), Decidable (Along step ok s is)
  | _, [] => isTrue trivial
  | s, i :: is =>
    have := Along.decidable ok (step s i).2 is
    inferInstanceAs (Decidable (ok s i ∧ _))

variable {step} {step' : τ → ι → ο × τ} {ok : σ → ι → Prop}

theorem Along.of_prefix {s : σ} {is is' : List ι} (h : Along step ok s is) (hle : is' <+: is) :
    Along step ok s is' := by
  induction is' generalizing s is with
  | nil => exact trivial
  | cons i is' ih =>
    obtain ⟨rest, rfl⟩ := hle
    exact ⟨h.1, ih h.2 ⟨rest, rfl⟩⟩

theorem Along.of_forall (h : ∀ s i, ok s i) (s : σ) (is : List ι) : Along step ok s is := by
  induction is generalizing s with
  | nil => exact trivial
  | cons i is ih => exact ⟨h s i, ih (step s i).2⟩

theorem run_invariant {P : σ → Prop} (h : ∀ s i, P s → ok s i → P (step s i).2) {s : σ}
    {is : List ι} (hs : P s) (his : Along step ok s is) : P (run step s is).2 := by
  induction is generalizing s with
  | nil => exact hs
  | cons i is ih => exact ih (h s i hs his.1) his.2

theorem run_preserves {P : σ → Prop} (h : ∀ s i, P s → P (step s i).2) {s : σ} (is : List ι)
    (hs : P s) : P (run step s is).2 := by
  induction is generalizing s with
  | nil => exact hs
  | cons i is ih => exact ih (h s i hs)

/-- Related states stay related and give the same outputs, if every step does. -/
theorem run_simulates {R : σ → τ → Prop}
    (h : ∀ s t i, R s t → ok s i →
      (step s i).1 = (step' t i).1 ∧ R (step s i).2 (step' t i).2)
    {s : σ} {t : τ} {is : List ι} (hst : R s t) (his : Along step ok s is) :
    (run step s is).1 = (run step' t is).1 ∧ R (run step s is).2 (run step' t is).2 := by
  induction is generalizing s t with
  | nil => exact ⟨rfl, hst⟩
  | cons i is ih =>
    obtain ⟨hout, hnext⟩ := h s t i hst his.1
    obtain ⟨houts, hlast⟩ := ih hnext his.2
    exact ⟨by rw [run, run, hout, houts], hlast⟩

/-- If it depends on a condition in every step whether the outputs correspond, then it depends on
all of them whether those of a run do. -/
theorem run_outputs_iff {ο' : Type*} {step' : τ → ι → ο' × τ} {R : σ → τ → Prop} {S : ο → ο' → Prop}
    (h : ∀ s t i, R s t →
      (S (step s i).1 (step' t i).1 ↔ ok s i) ∧ (ok s i → R (step s i).2 (step' t i).2))
    {s : σ} {t : τ} (is : List ι) (hst : R s t) :
    List.Forall₂ S (run step s is).1 (run step' t is).1 ↔ Along step ok s is := by
  induction is generalizing s t with
  | nil => exact ⟨fun _ => trivial, fun _ => .nil⟩
  | cons i is ih =>
    obtain ⟨hout, hnext⟩ := h s t i hst
    rw [run, run, List.forall₂_cons, hout, Along]
    exact and_congr_right fun hok => ih (hnext hok)

end Run
