import Mathlib.Tactic.Common
import Mathlib.Data.List.Range
import Mathlib.Logic.Function.Basic

/-!
Tables of file descriptors and the POSIX calls that change them. A new descriptor
is always the lowest one that is free.
-/

/-- `file fd` is the open file description that `fd` denotes. Descriptors from
`limit` on are never given out. -/
@[ext] structure FdTable (α : Type*) where
  file : ℕ → Option α
  limit : ℕ

namespace FdTable

variable {α : Type*}

def set (fd : ℕ) (d : Option α) (t : FdTable α) : FdTable α :=
  { t with file := Function.update t.file fd d }

def close (fd : ℕ) (t : FdTable α) : FdTable α := t.set fd none

/-- The lowest free descriptor that is not below `min`. -/
def free (min : ℕ) (t : FdTable α) : Option ℕ :=
  (List.range t.limit).find? fun fd => decide (min ≤ fd) && (t.file fd).isNone

/-- `open`, where it gives a new description. -/
def openFile (d : α) (t : FdTable α) : Option (ℕ × FdTable α) :=
  (t.free 0).map fun fd => (fd, t.set fd (some d))

/-- `pipe`, with the descriptions of its ends. -/
def pipe (r w : α) (t : FdTable α) : Option ((ℕ × ℕ) × FdTable α) :=
  match t.openFile r with
  | none => none
  | some (i, t) => (t.openFile w).map fun (o, t) => ((i, o), t)

def dup2 (f fd : ℕ) (t : FdTable α) : Option (FdTable α) :=
  if (t.file f).isSome ∧ fd < t.limit then some (t.set fd (t.file f)) else none

inductive DupError where
  | badf
  | mfile
  deriving DecidableEq, Repr

/-- `fcntl` with `F_DUPFD`. -/
def dupfd (f min : ℕ) (t : FdTable α) : Except DupError (ℕ × FdTable α) :=
  if (t.file f).isNone then .error .badf
  else match t.free min with
    | none => .error .mfile
    | some fd => .ok (fd, t.set fd (t.file f))

variable {t : FdTable α} {fd : ℕ}

@[simp] theorem set_self (d : Option α) : (t.set fd d).file fd = d := Function.update_self ..

@[simp] theorem set_ne {k : ℕ} (d : Option α) (h : k ≠ fd) : (t.set fd d).file k = t.file k :=
  Function.update_of_ne h ..

@[simp] theorem close_self : (t.close fd).file fd = none := set_self none

@[simp] theorem close_ne {k : ℕ} (h : k ≠ fd) : (t.close fd).file k = t.file k := set_ne none h

/-- Closing a descriptor that was free when it was set. -/
theorem close_set {d : Option α} (h : t.file fd = none) : (t.set fd d).close fd = t := by
  obtain ⟨file, limit⟩ := t
  simp only [close, set, Function.update_idem, mk.injEq, and_true]
  exact Function.update_eq_self_iff.2 h.symm

theorem free_spec {min : ℕ} (h : t.free min = some fd) :
    min ≤ fd ∧ fd < t.limit ∧ t.file fd = none ∧ ∀ k, min ≤ k → k < fd → t.file k ≠ none := by
  obtain ⟨hfd, i, hi, hget, hbefore⟩ := List.find?_eq_some_iff_getElem.1 h
  rw [List.getElem_range] at hget
  subst hget
  rw [Bool.and_eq_true, decide_eq_true_iff, Option.isNone_iff_eq_none] at hfd
  refine ⟨hfd.1, by simpa using hi, hfd.2, ?_⟩
  intro k hk hlt hnone
  have hskip := hbefore k hlt
  rw [List.getElem_range] at hskip
  simp [hk, hnone] at hskip

theorem openFile_spec {d : α} {t' : FdTable α} (h : t.openFile d = some (fd, t')) :
    t.file fd = none ∧ t' = t.set fd (some d) := by
  obtain ⟨k, hk, heq⟩ := Option.map_eq_some_iff.1 h
  obtain ⟨rfl, rfl⟩ := Prod.mk.inj heq
  exact ⟨(free_spec hk).2.2.1, rfl⟩

/-- The ends of a pipe; the end to write is never descriptor 0. -/
theorem pipe_spec {r w : α} {i o : ℕ} {t' : FdTable α} (h : t.pipe r w = some ((i, o), t')) :
    t.file i = none ∧ t.file o = none ∧ i ≠ o ∧ o ≠ 0 ∧
      t' = (t.set i (some r)).set o (some w) := by
  unfold pipe at h
  split at h
  · cases h
  case h_2 i' t₁ hopen =>
    obtain ⟨⟨o', t₂⟩, hopen', heq⟩ := Option.map_eq_some_iff.1 h
    obtain ⟨hi, rfl⟩ := openFile_spec hopen
    obtain ⟨ho, rfl⟩ := openFile_spec hopen'
    obtain ⟨hio, rfl⟩ := Prod.mk.inj heq
    obtain ⟨rfl, rfl⟩ := Prod.mk.inj hio
    have hne : i' ≠ o' := by
      rintro rfl
      simp at ho
    rw [set_ne _ hne.symm] at ho
    refine ⟨hi, ho, hne, ?_, rfl⟩
    rintro rfl
    obtain ⟨k, hk, heq⟩ := Option.map_eq_some_iff.1 hopen
    obtain ⟨rfl, -⟩ := Prod.mk.inj heq
    exact (free_spec hk).2.2.2 0 le_rfl (Nat.pos_of_ne_zero hne) ho

theorem dup2_spec {f : ℕ} {t' : FdTable α} (h : t.dup2 f fd = some t') :
    t.file f ≠ none ∧ t' = t.set fd (t.file f) := by
  unfold dup2 at h
  split_ifs at h with hok
  exact ⟨Option.isSome_iff_ne_none.1 hok.1, (Option.some.inj h).symm⟩

theorem dup2_eq {f : ℕ} (hopen : t.file f ≠ none) (hlimit : fd < t.limit) :
    t.dup2 f fd = some (t.set fd (t.file f)) :=
  if_pos ⟨Option.isSome_iff_ne_none.2 hopen, hlimit⟩

theorem dupfd_ok {f min : ℕ} {t' : FdTable α} (h : t.dupfd f min = .ok (fd, t')) :
    t.file f ≠ none ∧ min ≤ fd ∧ fd < t.limit ∧ t.file fd = none ∧ t' = t.set fd (t.file f) := by
  unfold dupfd at h
  split_ifs at h with hf
  cases hfree : t.free min with
  | none => simp [hfree] at h
  | some k =>
    rw [hfree] at h
    obtain ⟨rfl, rfl⟩ := Prod.mk.inj (Except.ok.inj h)
    have hspec := free_spec hfree
    exact ⟨fun hnone => hf (by rw [hnone]; rfl), hspec.1, hspec.2.1, hspec.2.2.1, rfl⟩

theorem dupfd_badf {f min : ℕ} (h : t.dupfd f min = .error .badf) : t.file f = none := by
  unfold dupfd at h
  split_ifs at h with hf
  · exact Option.isNone_iff_eq_none.1 hf
  · split at h <;> simp at h

end FdTable
