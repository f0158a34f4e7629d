import Bootsh.Redir.Popredir
import Bootsh.Redir.Fork
import Bootsh.Lib.Run

/-!
Redirections are undone: what `popredir` brings back, over every run of
redirections, undoing, `exec` and forks.
-/
namespace Bootsh

open Run

variable {α : Type} {cflag : Bool}

inductive RedirOp (α : Type) where
  /-- The redirections of a command that is not forked. -/
  | redirect (redir : List (RedirNode α))
  /-- Their end; they are dropped after `exec`. -/
  | popredir (drop : Bool)
  /-- Going on as the process of a subshell. -/
  | evalsubshell (redir : List (RedirNode α))
  /-- Going on as the `k`-th process of a pipeline. -/
  | evalpipe (k : ℕ) (pipes : List (α × α))

def redirStep (cflag : Bool) (st : RedirState α) : RedirOp α → RedirState α
  | .redirect redir => redirect cflag true redir (pushredir redir st)
  | .popredir drop => popredir drop st
  | .evalsubshell redir => evalsubshell cflag redir st
  | .evalpipe k pipes => evalpipe k none pipes st

/-- What is known of a frame: the descriptors when it was pushed, and which of them
`exec` has changed for good inside. -/
structure Scope (α : Type) where
  orig : Fin 10 → Option α
  kept : Fin 10 → Bool

/-- Redirections that are not undone: a frame hides those of its own descriptors. -/
def keep : List Redirtab → List (Scope α) → (Fin 10 → Bool) → List (Scope α)
  | rp :: next, s :: scopes, new =>
    { s with kept := fun i => s.kept i || new i } ::
      keep next scopes fun i => new i && decide (rp i = .empty)
  | _, _, _ => []

/-- A process that is forked has no frames. -/
def inherited : List Redirtab → List (Scope α) → List (Scope α)
  | [], _ => []
  | _ :: _, scopes => scopes

/-- A step together with the history of the frames. -/
def watchedRedir (cflag : Bool) (ss : RedirState α × List (Scope α)) (op : RedirOp α) :
    Unit × RedirState α × List (Scope α) :=
  let (st, scopes) := ss
  let st' := redirStep cflag st op
  let scopes' := match op, st.redirlist with
    | .redirect [], _ => scopes
    | .redirect (_ :: _), _ => ⟨user st.fds, fun _ => false⟩ :: scopes
    | .popredir true, rp :: next => keep next scopes.tail fun i => decide (rp i ≠ .empty)
    | .popredir _, _ => scopes.tail
    | _, _ => inherited st'.redirlist scopes
  ((), st', scopes')

/-- Undoing the frames one after the other gives what the histories say. -/
def Matches (t : FdTable α) : List Redirtab → List (Scope α) → (Fin 10 → Option α) → Prop
  | [], [], _ => True
  | rp :: next, s :: scopes, cur =>
    (∀ i, rp i ≠ .empty ∨ s.kept i = false → undo t rp cur i = s.orig i) ∧
      Matches t next scopes (undo t rp cur)
  | _, _, _ => False

theorem undo_congr {t t' : FdTable α} {rp : Redirtab} (h : ∀ i k, rp i = .saved k → t'.file k = t.file k)
    (cur : Fin 10 → Option α) : undo t' rp cur = undo t rp cur := by
  funext i
  unfold undo
  cases hrp : rp i with
  | empty => rfl
  | closed => rfl
  | saved k => exact h i k hrp

theorem Matches.congr {t t' : FdTable α} {frames : List Redirtab} {scopes : List (Scope α)}
    {cur : Fin 10 → Option α}
    (hcopies : ∀ rp ∈ frames, ∀ i k, rp i = .saved k → t'.file k = t.file k)
    (h : Matches t frames scopes cur) : Matches t' frames scopes cur := by
  induction frames generalizing scopes cur with
  | nil => cases scopes <;> exact h
  | cons rp next ih =>
    cases scopes with
    | nil => exact h
    | cons s scopes =>
      have hundo := undo_congr (hcopies rp List.mem_cons_self) cur
      refine ⟨fun i hi => ?_, ?_⟩
      · rw [hundo]
        exact h.1 i hi
      · rw [hundo]
        exact ih (fun rp' hrp' => hcopies rp' (List.mem_cons_of_mem _ hrp')) h.2

/-- Descriptors that are changed for good are marked in the histories. -/
theorem Matches.keep {t : FdTable α} {frames : List Redirtab} {scopes : List (Scope α)}
    {cur cur' : Fin 10 → Option α} {new : Fin 10 → Bool}
    (hcur : ∀ i, new i = false → cur' i = cur i) (h : Matches t frames scopes cur) :
    Matches t frames (keep frames scopes new) cur' := by
  induction frames generalizing scopes cur cur' new with
  | nil => 
    cases scopes with
    | nil => trivial
    | cons => exact h.elim
  | cons rp next ih =>
    cases scopes with
    | nil => exact h.elim
    | cons s scopes =>
      refine ⟨fun i hi => ?_, ih (fun i hi => ?_) h.2⟩
      · rw [← h.1 i (hi.imp_right fun hkept => (Bool.or_eq_false_iff.1 hkept).1)]
        unfold undo
        cases hrp : rp i with
        | empty =>
          refine hcur i ?_
          rcases hi with hi | hi
          · exact absurd hrp hi
          · exact (Bool.or_eq_false_iff.1 hi).2
        | closed => rfl
        | saved k => rfl
      · unfold undo
        cases hrp : rp i with
        | empty => exact hcur i (by simpa [hrp] using hi)
        | closed => rfl
        | saved k => rfl

/-- No `savefd` and no fork for a here-document fails, and a process that is forked does
not open a descriptor whose bit is set. -/
def Spared (cflag : Bool) (ss : RedirState α × List (Scope α)) : RedirOp α → Prop
  | .redirect redir => (∀ r ∈ redir, r.forks) ∧ SavefdsWork cflag redir (pushredir redir ss.1)
  | .popredir _ => True
  | .evalsubshell redir => (∀ r ∈ redir, r.forks) ∧
      ∀ r ∈ redir, r.opens → ss.1.closedRedirs r.fd = false
  | .evalpipe k pipes => (k ≠ 0 → ss.1.closedRedirs 0 = false) ∧
      (k < pipes.length → ss.1.closedRedirs 1 = false)

instance (ss : RedirState α × List (Scope α)) (op : RedirOp α) : Decidable (Spared cflag ss op) := by
  cases op <;> unfold Spared <;> infer_instance

/-- The state is sound and its frames are as their histories say. -/
def Undoable (ss : RedirState α × List (Scope α)) : Prop :=
  Sound ss.1 ∧ Matches ss.1.fds ss.1.redirlist ss.2 (user ss.1.fds)

theorem Sound.pushredir {redir : RedirNode α} {redirs : List (RedirNode α)} {st : RedirState α}
    (h : Sound st) : Sound (pushredir (redir :: redirs) st) := by
  have hnone : ∀ {i k}, (fun _ => .empty : Redirtab) i ≠ .saved k := fun hk => by cases hk
  refine ⟨h.bits, ?_, ?_, List.pairwise_cons.2 ⟨fun _ _ i j k hi => absurd hi (@hnone i k), h.apart⟩⟩
  · intro rp hrp i k hk
    rcases List.mem_cons.1 hrp with rfl | hrp
    · exact absurd hk (@hnone i k)
    · exact h.saved rp hrp i k hk
  · intro rp hrp i j k hi hj
    rcases List.mem_cons.1 hrp with rfl | hrp
    · exact absurd hi (@hnone i k)
    · exact h.inj rp hrp i j k hi hj

theorem Undoable.redirect {st : RedirState α} {scopes : List (Scope α)} (h : Undoable (st, scopes))
    {redir : List (RedirNode α)} (hop : Spared cflag (st, scopes) (.redirect redir)) :
    Undoable (watchedRedir cflag (st, scopes) (.redirect redir)).2 := by
  cases redir with
  | nil => exact h
  | cons r redir =>
    obtain ⟨hsound, hmatches⟩ := h
    have hpush : Sound (pushredir (r :: redir) st) := hsound.pushredir
    have hpreserved := @redirect_preserved _ cflag _ (fun _ => .empty) st.redirlist _ hpush rfl
      hop.1 hop.2
    obtain ⟨sv, hsv, hundo⟩ := hpreserved.frame _ rfl
    refine ⟨hpreserved.sound, ?_⟩
    have hcopies : ∀ rp ∈ st.redirlist, ∀ i k, rp i = .saved k →
        (Bootsh.redirect cflag true (r :: redir) (pushredir (r :: redir) st)).fds.file k =
          st.fds.file k := by
      intro rp hrp i k hk
      obtain ⟨hten, -, hopen⟩ := hsound.saved rp hrp i k hk
      exact hpreserved.copies k hten hopen
    simp only [watchedRedir, redirStep, hsv]
    refine ⟨fun i _ => congrFun hundo i, ?_⟩
    rw [hundo]
    exact hmatches.congr hcopies

theorem Undoable.popredir {st : RedirState α} {scopes : List (Scope α)} (h : Undoable (st, scopes))
    (drop : Bool) : Undoable (watchedRedir cflag (st, scopes) (.popredir drop)).2 := by
  obtain ⟨hsound, hmatches⟩ := h
  cases hst : st.redirlist with
  | nil =>
    rw [hst] at hmatches
    cases scopes with
    | cons => exact hmatches.elim
    | nil =>
      have hpop : Bootsh.popredir drop st = st := by rw [Bootsh.popredir, hst]
      cases drop <;> simp only [watchedRedir, redirStep, hst, hpop] <;>
        exact ⟨hsound, by rw [hst]; trivial⟩
  | cons rp next =>
    rw [hst] at hmatches
    cases scopes with
    | nil => exact hmatches.elim
    | cons s scopes =>
      cases drop with
      | false =>
        obtain ⟨hsound', hnext, huser, hcopies⟩ := popredir_restores hsound hst
        simp only [watchedRedir, redirStep]
        refine ⟨hsound', ?_⟩
        rw [hnext, huser]
        exact hmatches.2.congr hcopies
      | true =>
        obtain ⟨hsound', hnext, huser, hcopies⟩ := popredir_drops hsound hst
        simp only [watchedRedir, redirStep, hst]
        refine ⟨hsound', ?_⟩
        rw [hnext, huser]
        refine (hmatches.2.keep fun i hi => ?_).congr hcopies
        rw [undo, of_not_not (of_decide_eq_false hi)]

theorem Undoable.step {ss : RedirState α × List (Scope α)} {op : RedirOp α} (h : Undoable ss)
    (hop : Spared cflag ss op) : Undoable (watchedRedir cflag ss op).2 := by
  obtain ⟨st, scopes⟩ := ss
  cases op with
  | redirect redir => exact h.redirect hop
  | popredir drop => exact h.popredir drop
  | evalsubshell redir =>
    obtain ⟨hsound, hlist⟩ := @evalsubshell_sound _ cflag redir st h.1 hop.1 hop.2
    simp only [watchedRedir, redirStep, hlist]
    refine ⟨hsound, ?_⟩
    rw [hlist]
    trivial
  | evalpipe k pipes =>
    obtain ⟨hsound, hlist⟩ := evalpipe_sound h.1 hop.1 hop.2
    refine ⟨hsound, ?_⟩
    simp only [watchedRedir, redirStep]
    rcases hlist with hlist | ⟨hlist, hfds⟩
    · rw [hlist]
      trivial
    · have hmatches : Matches st.fds st.redirlist scopes (user st.fds) := h.2
      simp only at hlist hfds
      rw [hlist, hfds]
      cases hst : st.redirlist with
      | nil => trivial
      | cons rp next =>
        rw [hst] at hmatches
        exact hmatches

/-- A shell with standard input, output and error. -/
def stdShell : RedirState ℕ :=
  ⟨⟨fun fd => if fd < 3 then some fd else none, 20⟩, [], fun _ => false⟩

/-- `fd>file`, where the file is this one. -/
def toFile (fd : Fin 10) (d : ℕ) : RedirNode ℕ := .file .to fd ⟨none, fun _ => some d, fun _ => true⟩

end Bootsh
