import Bootsh.Redir.Redir

/-!
The redirections of a frame: each turn of the loop of `redirect` leaves what
`popredir` brings back as it was.
-/
namespace Bootsh

variable {α : Type} {cflag : Bool}

/-! ### One redirection -/

/-- The fork for a here-document does not fail. -/
def RedirNode.forks : RedirNode α → Bool
  | .here _ _ long forks => !long || forks
  | _ => true

/-- What `openredirect` can give. -/
inductive Opened (t : FdTable α) : RedirNode α → Option NewFd → FdTable α → Prop
  | failed (redir : RedirNode α) : Opened t redir none t
  | same (fd : Fin 10) : Opened t (.dup fd (some fd)) (some .same) t
  | closed (fd : Fin 10) : Opened t (.dup fd none) (some .closed) t
  | dup {f fd : Fin 10} (hne : f ≠ fd) : Opened t (.dup fd (some f)) (some (.fd f)) t
  | fresh {redir : RedirNode α} {f : ℕ} (d : α) (hredir : ∀ fd dupfd, redir ≠ .dup fd dupfd)
      (hfree : t.file f = none) : Opened t redir (some (.fd f)) (t.set f (some d))

theorem shOpen_spec {name : NamedFile α} {flags : OpenFlags} {t t' : FdTable α} {f : ℕ}
    (h : shOpen name flags t = some (f, t')) : ∃ d, t.file f = none ∧ t' = t.set f (some d) := by
  unfold shOpen at h
  split at h
  · cases h
  case h_2 d _ => exact ⟨d, FdTable.openFile_spec h⟩

theorem doOpen_opened {redir : RedirNode α} (hredir : ∀ fd dupfd, redir ≠ .dup fd dupfd)
    (name : NamedFile α) (flags : OpenFlags) (t : FdTable α) :
    Opened t redir (doOpen name flags t).1 (doOpen name flags t).2 := by
  unfold doOpen
  split
  · exact Opened.failed redir
  case h_2 f t' hopen =>
    obtain ⟨d, hfree, rfl⟩ := shOpen_spec hopen
    exact Opened.fresh d hredir hfree

theorem openNoclobber_opened {redir : RedirNode α} (hredir : ∀ fd dupfd, redir ≠ .dup fd dupfd)
    (name : NamedFile α) (t : FdTable α) :
    Opened t redir (openNoclobber name t).1 (openNoclobber name t).2 := by
  unfold openNoclobber
  split
  · exact doOpen_opened hredir name _ t
  · exact Opened.failed redir
  · split
    · exact Opened.failed redir
    case h_2 f t' hopen =>
      obtain ⟨d, hfree, rfl⟩ := shOpen_spec hopen
      split_ifs
      · rw [FdTable.close_set hfree]
        exact Opened.failed redir
      · exact Opened.fresh d hredir hfree

theorem openhere_opened {redir : RedirNode α} (hredir : ∀ fd dupfd, redir ≠ .dup fd dupfd)
    (pipe : α × α) {long forks : Bool} (hforks : (!long || forks) = true) (t : FdTable α) :
    Opened t redir (openhere pipe long forks t).1 (openhere pipe long forks t).2 := by
  unfold openhere
  split
  · exact Opened.failed redir
  case h_2 i o t' hpipe =>
    obtain ⟨hi, ho, hne, -, rfl⟩ := FdTable.pipe_spec hpipe
    rw [if_neg (by cases long <;> cases forks <;> simp_all)]
    rw [FdTable.close_set (by rw [FdTable.set_ne _ hne.symm, ho])]
    exact Opened.fresh _ hredir hi

theorem openredirect_opened {redir : RedirNode α} (hforks : redir.forks) (t : FdTable α) :
    Opened t redir (openredirect cflag redir t).1 (openredirect cflag redir t).2 := by
  cases redir with
  | file type fd name =>
    have hredir : ∀ fd' dupfd, RedirNode.file type fd name ≠ .dup fd' dupfd := by
      intro fd' dupfd h
      cases h
    cases type with
    | «to» =>
      rw [openredirect]
      split_ifs
      · exact openNoclobber_opened hredir name t
      · exact doOpen_opened hredir name _ t
    | _ => exact doOpen_opened hredir name _ t
  | dup fd dupfd =>
    cases dupfd with
    | none => exact Opened.closed fd
    | some f =>
      rw [openredirect]
      split_ifs with hf
      · subst hf
        exact Opened.same f
      · exact Opened.dup hf
  | here fd pipe long forks =>
    exact openhere_opened (fun fd' dupfd h => by cases h) pipe hforks t

theorem getD_dup2_ne {f fd k : ℕ} {u : FdTable α} (hk : k ≠ fd) :
    ((u.dup2 f fd).getD u).file k = u.file k := by
  cases hdup : u.dup2 f fd with
  | none => rfl
  | some v =>
    obtain ⟨-, rfl⟩ := FdTable.dup2_spec hdup
    exact FdTable.set_ne _ hk

/-- `dupredirect` changes the descriptor of the redirection and closes a new one. -/
theorem dupredirect_ne {redir : RedirNode α} {newfd : NewFd} {u : FdTable α} {k : ℕ}
    (hk : k ≠ redir.fd) (hnew : newfd ≠ .fd k ∨ ∃ fd f, redir = .dup fd f) :
    (dupredirect redir newfd u).2.file k = u.file k := by
  unfold dupredirect
  split
  · split
    · rfl
    case h_2 hdup =>
      obtain ⟨-, rfl⟩ := FdTable.dup2_spec hdup
      exact FdTable.set_ne _ hk
  · exact FdTable.close_ne hk
  case h_3 f hredir =>
    have hkf : k ≠ f := by
      rintro rfl
      rcases hnew with hnew | ⟨fd, f', rfl⟩
      · exact hnew rfl
      · exact hredir _ _ rfl
    rw [FdTable.close_ne hkf, getD_dup2_ne hk]
  · rfl

theorem dupredirect_fresh {redir : RedirNode α} {f : ℕ} {u : FdTable α}
    (hredir : ∀ fd dupfd, redir ≠ .dup fd dupfd) :
    (dupredirect redir (.fd f) u).2.file f = none := by
  cases redir with
  | dup fd dupfd => exact absurd rfl (hredir fd dupfd)
  | _ => exact FdTable.close_self

/-- Altogether `openredirect` and `dupredirect` leave the other descriptors alone. -/
theorem Opened.dupredirect_ne {t t' u : FdTable α} {redir : RedirNode α} {newfd : NewFd}
    (hopened : Opened t redir (some newfd) t') {k : ℕ} (hk : k ≠ redir.fd)
    (hu : u.file k = t'.file k) : (dupredirect redir newfd u).2.file k = t.file k := by
  cases hopened with
  | same fd => rw [Bootsh.dupredirect_ne hk (Or.inr ⟨_, _, rfl⟩), hu]
  | closed fd => rw [Bootsh.dupredirect_ne hk (Or.inr ⟨_, _, rfl⟩), hu]
  | dup hne => rw [Bootsh.dupredirect_ne hk (Or.inr ⟨_, _, rfl⟩), hu]
  | @fresh redir f d hredir hfree =>
    by_cases hkf : k = f
    · rw [hkf, dupredirect_fresh hredir, hfree]
    · rw [Bootsh.dupredirect_ne hk (Or.inl fun h => hkf (NewFd.fd.inj h).symm), hu,
        FdTable.set_ne _ hkf]

theorem dupredirect_closed {t t' u : FdTable α} {redir : RedirNode α}
    (hopened : Opened t redir (some .closed) t') :
    (dupredirect redir .closed u).2.file redir.fd = none := by
  cases hopened with
  | closed fd => exact FdTable.close_self

theorem dupredirect_limit (redir : RedirNode α) (newfd : NewFd) (u : FdTable α) :
    (dupredirect redir newfd u).2.limit = u.limit := by
  have hdup2 : ∀ {f fd : ℕ} {v : FdTable α}, u.dup2 f fd = some v → v.limit = u.limit := by
    intro f fd v h
    obtain ⟨-, rfl⟩ := FdTable.dup2_spec h
    rfl
  unfold dupredirect
  split
  · split
    · rfl
    case h_2 v h => exact hdup2 h
  · rfl
  · cases h : u.dup2 _ _ with
    | none => rfl
    | some v => exact @hdup2 _ _ v h
  · rfl

/-! ### One redirection in a frame -/

/-- What `popredir(0)` gives a descriptor of the frame, with `cur` the user's
descriptors before it. -/
def undo (t : FdTable α) (rp : Redirtab) (cur : Fin 10 → Option α) (i : Fin 10) : Option α :=
  match rp i with
  | .empty => cur i
  | .closed => none
  | .saved fd => t.file fd

/-- The descriptors of the user. -/
def user (t : FdTable α) (i : Fin 10) : Option α := t.file i

/-- The bits of closed descriptors are right, and the copies in the frames are open,
out of the user's reach and each in one place only. -/
structure Sound (st : RedirState α) : Prop where
  bits : ∀ i, st.closedRedirs i = true → user st.fds i = none
  saved : ∀ rp ∈ st.redirlist, ∀ i fd, rp i = .saved fd →
    10 ≤ fd ∧ fd < st.fds.limit ∧ st.fds.file fd ≠ none
  inj : ∀ rp ∈ st.redirlist, ∀ i j fd, rp i = .saved fd → rp j = .saved fd → i = j
  apart : st.redirlist.Pairwise fun rp rp' => ∀ i j fd, rp i = .saved fd → rp' j ≠ .saved fd

/-- How a frame can record a descriptor that is being redirected. -/
inductive Slot (t t' : FdTable α) (fd : Fin 10) : Renamed → Renamed → Prop
  | unchanged (h : t'.file fd = t.file fd) : Slot t t' fd .empty .empty
  | before {r : Renamed} (hr : r ≠ .empty) : Slot t t' fd r r
  | closed (h : t.file fd = none) : Slot t t' fd .empty .closed
  | saved {k : ℕ} (hk : 10 ≤ k) (hlimit : k < t.limit) (hfree : t.file k = none)
      (hopen : t.file fd ≠ none) (hcopy : t'.file k = t.file fd) :
      Slot t t' fd .empty (.saved k)

/-- What a turn of the loop of `redirect` does to the frame `sv`. -/
structure Pushed (redir : RedirNode α) (sv : Redirtab) (rest : List Redirtab)
    (st st' : RedirState α) : Prop where
  frame : ∃ r, st'.redirlist = Function.update sv redir.fd r :: rest ∧
    Slot st.fds st'.fds redir.fd (sv redir.fd) r
  limit : st'.fds.limit = st.fds.limit
  others : ∀ k : ℕ, k ≠ redir.fd → (k < 10 ∨ st.fds.file k ≠ none) →
    st'.fds.file k = st.fds.file k
  bits : ∀ i, i ≠ redir.fd → st'.closedRedirs i = st.closedRedirs i
  bit : st'.closedRedirs redir.fd = true → user st'.fds redir.fd = none

/-- `savefd` finds a descriptor for the copy, if the frame needs one. -/
def SavefdWorks (cflag : Bool) (redir : RedirNode α) (st : RedirState α) : Prop :=
  match st.redirlist with
  | [] => True
  | sv :: _ => sv redir.fd = .empty →
    (savefd redir.fd (openredirect cflag redir st.fds).2).1 ≠ none

instance (redir : RedirNode α) (st : RedirState α) : Decidable (SavefdWorks cflag redir st) := by
  unfold SavefdWorks
  split <;> infer_instance

theorem savefd_spec {fd : ℕ} {t : FdTable α} (h : (savefd fd t).1 ≠ none) :
    (savefd fd t = (some .closed, t) ∧ t.file fd = none) ∨
    ∃ k, savefd fd t = (some (.saved k), (t.set k (t.file fd)).close fd) ∧ 10 ≤ k ∧ k < t.limit ∧
      t.file k = none ∧ t.file fd ≠ none := by
  unfold savefd at h ⊢
  cases hdup : t.dupfd fd 10 with
  | error e =>
    cases e with
    | badf => exact Or.inl ⟨rfl, FdTable.dupfd_badf hdup⟩
    | mfile => simp [hdup] at h
  | ok p =>
    obtain ⟨k, u⟩ := p
    obtain ⟨hopen, hk, hlimit, hfree, rfl⟩ := FdTable.dupfd_ok hdup
    exact Or.inr ⟨k, rfl, hk, hlimit, hfree, hopen⟩

theorem Opened.limit {t t' : FdTable α} {redir : RedirNode α} {res : Option NewFd}
    (h : Opened t redir res t') : t'.limit = t.limit := by
  cases h <;> rfl

theorem Opened.file_ne {t t' : FdTable α} {redir : RedirNode α} {newfd : NewFd} {k : ℕ}
    (h : Opened t redir (some newfd) t') (hk : newfd ≠ .fd k) : t'.file k = t.file k := by
  cases h with
  | fresh d _ hfree => exact FdTable.set_ne _ fun heq => hk (by rw [heq])
  | _ => rfl

theorem Opened.free {t t' : FdTable α} {redir : RedirNode α} {newfd : NewFd} {k : ℕ}
    (h : Opened t redir (some newfd) t') (hk : t'.file k = none) :
    t.file k = none ∧ (newfd ≠ .fd k ∨ ∃ fd f, redir = .dup fd f) := by
  cases h with
  | @fresh redir f d hredir hfree =>
    have hne : k ≠ f := by
      rintro rfl
      simp at hk
    exact ⟨by rwa [FdTable.set_ne _ hne] at hk, Or.inl fun h => hne (NewFd.fd.inj h).symm⟩
  | _ => exact ⟨hk, Or.inr ⟨_, _, rfl⟩⟩

/-- A descriptor that is open stays as it is. -/
theorem Opened.file_open {t t' : FdTable α} {redir : RedirNode α} {res : Option NewFd} {k : ℕ}
    (h : Opened t redir res t') (hk : t.file k ≠ none) : t'.file k = t.file k := by
  cases h with
  | fresh d _ hfree => exact FdTable.set_ne _ fun heq => hk (by rw [heq, hfree])
  | _ => rfl

/-- The bit that a turn of the loop leaves says whether the descriptor is closed. -/
theorem pushed_of_update {redir : RedirNode α} {sv : Redirtab} {rest : List Redirtab}
    {st : RedirState α} {newfd : NewFd} {t'' : FdTable α} {r : Renamed}
    (hslot : Slot st.fds t'' redir.fd (sv redir.fd) r) (hlimit : t''.limit = st.fds.limit)
    (hothers : ∀ k : ℕ, k ≠ redir.fd → (k < 10 ∨ st.fds.file k ≠ none) → t''.file k = st.fds.file k)
    (hclosed : newfd = .closed → t''.file redir.fd = none) :
    Pushed redir sv rest st ⟨t'', Function.update sv redir.fd r :: rest,
      Function.update st.closedRedirs redir.fd (!decide (newfd ≠ .closed))⟩ := by
  refine ⟨⟨r, rfl, hslot⟩, hlimit, hothers, fun i hi => Function.update_of_ne hi _ _, ?_⟩
  intro hbit
  refine hclosed ?_
  simpa using hbit

theorem redirectPushed_spec {redir : RedirNode α} {sv : Redirtab} {rest : List Redirtab}
    {fds t' : FdTable α} {bits : Fin 10 → Bool} {newfd : NewFd} (hsame : newfd ≠ .same)
    (hopened : Opened fds redir (some newfd) t')
    (hbits : ∀ i, bits i = true → user fds i = none)
    (hsave : sv redir.fd = .empty → (savefd redir.fd t').1 ≠ none) :
    Pushed redir sv rest ⟨fds, sv :: rest, bits⟩
      (redirectPushed redir newfd sv rest ⟨t', sv :: rest, bits⟩).2 := by
  have hupdate : Function.update sv redir.fd (sv redir.fd) = sv := Function.update_eq_self _ _
  -- a new descriptor that is already the right one
  have hright : newfd = .fd redir.fd → fds.file redir.fd = none := by
    intro hfd
    generalize hk : (redir.fd : ℕ) = k at hfd
    subst hfd
    cases hopened with
    | dup hne => exact absurd (Fin.ext hk.symm) hne
    | fresh d _ hfree => exact hfree
  have hkeep : ∀ k : ℕ, k ≠ redir.fd → newfd = .fd redir.fd → t'.file k = fds.file k := by
    rintro k hk rfl
    exact hopened.file_ne fun h => hk (NewFd.fd.inj h).symm
  have hdup : ∀ k : ℕ, k ≠ redir.fd → (dupredirect redir newfd t').2.file k = fds.file k :=
    fun k hk => hopened.dupredirect_ne hk rfl
  have hduplimit := (dupredirect_limit redir newfd t').trans hopened.limit
  have hdupclosed : newfd = .closed → (dupredirect redir newfd t').2.file redir.fd = none := by
    rintro rfl
    exact dupredirect_closed hopened
  unfold redirectPushed updateClosedRedirs
  dsimp only
  by_cases hempty : sv redir.fd = .empty
  · rw [if_pos hempty]
    split
    case isTrue hcopy =>
      have hfile : t'.file redir.fd = fds.file redir.fd := hopened.file_ne hcopy.1
      rcases savefd_spec (hsave hempty) with ⟨hsaved, hnone⟩ | ⟨k, hsaved, hk, hlimit, hfree, hopen⟩
      · have hslot : ∀ t'', Slot fds t'' redir.fd (sv redir.fd) .closed := by
          rw [hempty]
          exact fun t'' => Slot.closed (hfile.symm.trans hnone)
        rw [hsaved]
        by_cases hclosed : newfd = .closed
        · simp only [if_pos hclosed]
          refine pushed_of_update (hslot _) hopened.limit (fun k _ _ => ?_) fun _ => hnone
          exact hopened.file_ne (hclosed ▸ fun h => by cases h)
        · simp only [if_neg hclosed]
          exact pushed_of_update (hslot _) hduplimit (fun k hk _ => hdup k hk) hdupclosed
      · obtain ⟨hfree', hnew⟩ := hopened.free hfree
        have hkfd : k ≠ redir.fd := fun h => hopen (h ▸ hfree)
        generalize hu : (t'.set k (t'.file redir.fd)).close redir.fd = u at hsaved
        have hune : ∀ j : ℕ, j ≠ redir.fd → j ≠ k → u.file j = t'.file j := by
          intro j hj hjk
          rw [← hu, FdTable.close_ne hj, FdTable.set_ne _ hjk]
        have huk : u.file k = fds.file redir.fd := by
          rw [← hu, FdTable.close_ne hkfd, FdTable.set_self, hfile]
        have hufd : u.file redir.fd = none := by
          rw [← hu, FdTable.close_self]
        have hulimit : u.limit = fds.limit := by
          rw [← hu]
          exact hopened.limit
        have hslot : ∀ t'' : FdTable α, t''.file k = u.file k →
            Slot fds t'' redir.fd (sv redir.fd) (.saved k) := by
          intro t'' hcopied
          rw [hempty]
          exact Slot.saved hk (hopened.limit ▸ hlimit) hfree' (hfile ▸ hopen) (hcopied.trans huk)
        have hnotk : ∀ j : ℕ, (j < 10 ∨ fds.file j ≠ none) → j ≠ k := by
          rintro j (hj | hj) rfl
          · omega
          · exact hj hfree'
        rw [hsaved]
        by_cases hclosed : newfd = .closed
        · simp only [if_pos hclosed]
          refine pushed_of_update (hslot u rfl) hulimit (fun j hj hjk => ?_) fun _ => hufd
          rw [hune j hj (hnotk j hjk)]
          exact hopened.file_ne (hclosed ▸ fun h => by cases h)
        · simp only [if_neg hclosed]
          refine pushed_of_update (hslot _ (dupredirect_ne hkfd hnew))
            ((dupredirect_limit _ _ _).trans hulimit) (fun j hj hjk => ?_) fun h => absurd h hclosed
          exact hopened.dupredirect_ne hj (hune j hj (hnotk j hjk))
    case isFalse hcopy =>
      have hnone : fds.file redir.fd = none := by
        by_cases hfd : newfd = .fd redir.fd
        · exact hright hfd
        · exact hbits _ (by simpa [hfd] using hcopy)
      have hslot : ∀ t'', Slot fds t'' redir.fd (sv redir.fd) .closed := by
        rw [hempty]
        exact fun t'' => Slot.closed hnone
      split_ifs with hfd
      · exact pushed_of_update (hslot _) hopened.limit (fun k hk _ => hkeep k hk hfd)
          (fun h => absurd (hfd.symm.trans h) (fun h => by cases h))
      · exact pushed_of_update (hslot _) hduplimit (fun k hk _ => hdup k hk) hdupclosed
  · rw [if_neg hempty]
    have hslot : ∀ t'', Slot fds t'' redir.fd (sv redir.fd) (sv redir.fd) :=
      fun t'' => Slot.before hempty
    split_ifs with hfd
    · have := @pushed_of_update _ redir sv rest ⟨fds, sv :: rest, bits⟩ newfd t' _ (hslot _) hopened.limit
          (fun k hk _ => hkeep k hk hfd) (fun h => absurd (hfd.symm.trans h) (fun h => by cases h))
      rwa [hupdate] at this
    · have := @pushed_of_update _ redir sv rest ⟨fds, sv :: rest, bits⟩ newfd _ _ (hslot _) hduplimit
          (fun k hk _ => hdup k hk) hdupclosed
      rwa [hupdate] at this

theorem redirectOne_pushed {redir : RedirNode α} {sv : Redirtab} {rest : List Redirtab}
    {st : RedirState α} (hst : st.redirlist = sv :: rest)
    (hbits : ∀ i, st.closedRedirs i = true → user st.fds i = none) (hforks : redir.forks)
    (hsave : SavefdWorks cflag redir st) :
    Pushed redir sv rest st (redirectOne cflag true redir st).2 := by
  have hopened := @openredirect_opened _ cflag redir hforks st.fds
  rw [SavefdWorks, hst] at hsave
  unfold redirectOne
  generalize openredirect cflag redir st.fds = res at hopened hsave ⊢
  obtain ⟨res, t'⟩ := res
  obtain ⟨fds, redirlist, bits⟩ := st
  obtain rfl : redirlist = sv :: rest := hst
  have hkept : fds = t' → Pushed redir sv rest ⟨fds, sv :: rest, bits⟩ ⟨t', sv :: rest, bits⟩ := by
    rintro rfl
    have hupdate : Function.update sv redir.fd (sv redir.fd) = sv := Function.update_eq_self _ _
    refine ⟨⟨sv redir.fd, by rw [hupdate], ?_⟩, rfl, fun _ _ _ => rfl, fun _ _ => rfl,
      hbits redir.fd⟩
    by_cases hempty : sv redir.fd = .empty
    · rw [hempty]
      exact Slot.unchanged rfl
    · exact Slot.before hempty
  cases res with
  | none =>
    cases hopened
    exact hkept rfl
  | some newfd =>
    cases newfd with
    | same =>
      cases hopened
      exact hkept rfl
    | closed => exact redirectPushed_spec (fun h => by cases h) hopened hbits hsave
    | fd f => exact redirectPushed_spec (fun h => by cases h) hopened hbits hsave

/-! ### The list of redirections -/

/-- A descriptor of the frame is brought back as before the redirection. -/
theorem Slot.undo_eq {t t' : FdTable α} {fd : Fin 10} {r r' : Renamed} (h : Slot t t' fd r r')
    {sv : Redirtab} (hr : sv fd = r) (hcopy : ∀ k, r = .saved k → t'.file k = t.file k) :
    undo t' (Function.update sv fd r') (user t') fd = undo t sv (user t) fd := by
  unfold undo
  rw [Function.update_self, hr]
  cases h with
  | unchanged h => exact h
  | before hne =>
    cases r with
    | empty => exact absurd rfl hne
    | closed => rfl
    | saved k => exact hcopy k rfl
  | closed h => exact h.symm
  | saved hk hlimit hfree hopen hcopied => exact hcopied

theorem Pushed.undo_eq {redir : RedirNode α} {sv sv' : Redirtab} {rest : List Redirtab}
    {st st' : RedirState α} (h : Pushed redir sv rest st st') (hsound : Sound st)
    (hst : st.redirlist = sv :: rest) (hst' : st'.redirlist = sv' :: rest) :
    undo st'.fds sv' (user st'.fds) = undo st.fds sv (user st.fds) := by
  obtain ⟨r, hr, hslot⟩ := h.frame
  obtain rfl : sv' = Function.update sv redir.fd r := (List.cons.inj (hst'.symm.trans hr)).1
  have hcopies : ∀ i k, sv i = .saved k → st'.fds.file k = st.fds.file k := by
    intro i k hk
    obtain ⟨hten, -, hopen⟩ := hsound.saved sv (by rw [hst]; exact List.mem_cons_self) i k hk
    exact h.others k (by omega) (Or.inr hopen)
  funext i
  by_cases hi : i = redir.fd
  · subst hi
    exact hslot.undo_eq rfl (hcopies _)
  · unfold undo
    rw [Function.update_of_ne hi]
    cases hsv : sv i with
    | empty => exact h.others i (fun heq => hi (Fin.ext heq)) (Or.inl i.isLt)
    | closed => rfl
    | saved k => exact hcopies i k hsv

/-- A copy in the frame is an old one, or has just been made. -/
theorem Slot.copy {t t' : FdTable α} {fd i : Fin 10} {sv : Redirtab} {r : Renamed} {k : ℕ}
    (h : Slot t t' fd (sv fd) r) (hk : Function.update sv fd r i = .saved k) :
    sv i = .saved k ∨ (i = fd ∧ 10 ≤ k ∧ k < t.limit ∧ t.file k = none ∧ t'.file k ≠ none) := by
  by_cases hi : i = fd
  · subst hi
    rw [Function.update_self] at hk
    subst hk
    generalize sv i = r' at h
    cases h with
    | before _ => exact Or.inl rfl
    | saved hten hlimit hfree hopen hcopied =>
      exact Or.inr ⟨rfl, hten, hlimit, hfree, hcopied ▸ hopen⟩
  · rw [Function.update_of_ne hi] at hk
    exact Or.inl hk

theorem Pushed.sound {redir : RedirNode α} {sv : Redirtab} {rest : List Redirtab}
    {st st' : RedirState α} (h : Pushed redir sv rest st st') (hsound : Sound st)
    (hst : st.redirlist = sv :: rest) : Sound st' := by
  obtain ⟨r, hr, hslot⟩ := h.frame
  have hold : ∀ rp ∈ sv :: rest, ∀ i k, rp i = .saved k →
      10 ≤ k ∧ k < st'.fds.limit ∧ st'.fds.file k ≠ none ∧ st.fds.file k ≠ none := by
    intro rp hrp i k hk
    obtain ⟨hten, hlimit, hopen⟩ := hsound.saved rp (hst ▸ hrp) i k hk
    have hsame := h.others k (by omega) (Or.inr hopen)
    exact ⟨hten, h.limit ▸ hlimit, hsame ▸ hopen, hopen⟩
  refine ⟨?_, ?_, ?_, ?_⟩
  · intro i hbit
    by_cases hi : i = redir.fd
    · subst hi
      exact h.bit hbit
    · rw [h.bits i hi] at hbit
      exact (h.others i (fun heq => hi (Fin.ext heq)) (Or.inl i.isLt)).trans (hsound.bits i hbit)
  · intro rp hrp i k hk
    rw [hr] at hrp
    rcases List.mem_cons.1 hrp with rfl | hrp
    · rcases hslot.copy hk with hk | ⟨-, hten, hlimit, -, hopen⟩
      · obtain ⟨hten, hlimit, hopen, -⟩ := hold sv List.mem_cons_self i k hk
        exact ⟨hten, hlimit, hopen⟩
      · exact ⟨hten, h.limit ▸ hlimit, hopen⟩
    · obtain ⟨hten, hlimit, hopen, -⟩ := hold rp (List.mem_cons_of_mem _ hrp) i k hk
      exact ⟨hten, hlimit, hopen⟩
  · intro rp hrp i j k hi hj
    rw [hr] at hrp
    rcases List.mem_cons.1 hrp with rfl | hrp
    · rcases hslot.copy hi with hi | ⟨rfl, -, -, hfree, -⟩ <;>
        rcases hslot.copy hj with hj | ⟨rfl, -, -, hfree', -⟩
      · exact hsound.inj sv (by rw [hst]; exact List.mem_cons_self) i j k hi hj
      · exact absurd hfree' (hold sv List.mem_cons_self i k hi).2.2.2
      · exact absurd hfree (hold sv List.mem_cons_self j k hj).2.2.2
      · rfl
    · exact hsound.inj rp (by rw [hst]; exact List.mem_cons_of_mem _ hrp) i j k hi hj
  · have hapart := hsound.apart
    rw [hst, List.pairwise_cons] at hapart
    rw [hr, List.pairwise_cons]
    refine ⟨fun rp hrp i j k hi hj => ?_, hapart.2⟩
    rcases hslot.copy hi with hi | ⟨-, -, -, hfree, -⟩
    · exact hapart.1 rp hrp i j k hi hj
    · exact absurd hfree (hold rp (List.mem_cons_of_mem _ hrp) j k hj).2.2.2

/-- What the redirections of a frame preserve: what the frame brings back, and the
copies of the other frames. -/
structure Preserved (rest : List Redirtab) (st st' : RedirState α) : Prop where
  sound : Sound st'
  frame : ∀ sv, st.redirlist = sv :: rest → ∃ sv', st'.redirlist = sv' :: rest ∧
    undo st'.fds sv' (user st'.fds) = undo st.fds sv (user st.fds)
  copies : ∀ k, 10 ≤ k → st.fds.file k ≠ none → st'.fds.file k = st.fds.file k

/-- `savefd` finds a descriptor for each copy. -/
def SavefdsWork (cflag : Bool) : List (RedirNode α) → RedirState α → Prop
  | [], _ => True
  | redir :: rest, st => SavefdWorks cflag redir st ∧
      SavefdsWork cflag rest (redirectOne cflag true redir st).2

instance SavefdsWork.decidable (cflag : Bool) : (redirs : List (RedirNode α)) →
    (st : RedirState α) → Decidable (SavefdsWork cflag redirs st)
  | [], _ => isTrue trivial
  | redir :: rest, st =>
    have := SavefdsWork.decidable cflag rest (redirectOne cflag true redir st).2
    inferInstanceAs (Decidable (SavefdWorks cflag redir st ∧ _))

theorem Preserved.trans {rest : List Redirtab} {st st₁ st₂ : RedirState α}
    (h₁ : Preserved rest st st₁) (h₂ : Preserved rest st₁ st₂) : Preserved rest st st₂ := by
  refine ⟨h₂.sound, ?_, ?_⟩
  · intro sv hsv
    obtain ⟨sv₁, hsv₁, heq₁⟩ := h₁.frame sv hsv
    obtain ⟨sv₂, hsv₂, heq₂⟩ := h₂.frame sv₁ hsv₁
    exact ⟨sv₂, hsv₂, heq₂.trans heq₁⟩
  · intro k hk hopen
    have hsame := h₁.copies k hk hopen
    rw [h₂.copies k hk (hsame ▸ hopen), hsame]

theorem redirectOne_preserved {redir : RedirNode α} {sv : Redirtab} {rest : List Redirtab}
    {st : RedirState α} (hsound : Sound st) (hst : st.redirlist = sv :: rest)
    (hforks : redir.forks) (hsave : SavefdWorks cflag redir st) :
    Preserved rest st (redirectOne cflag true redir st).2 := by
  have hpushed := redirectOne_pushed hst hsound.bits hforks hsave
  obtain ⟨r, hr, -⟩ := hpushed.frame
  refine ⟨hpushed.sound hsound hst, ?_, fun k hk hopen => ?_⟩
  · intro sv' hsv'
    obtain rfl : sv' = sv := (List.cons.inj (hsv'.symm.trans hst)).1
    exact ⟨_, hr, hpushed.undo_eq hsound hst hr⟩
  · exact hpushed.others k (by omega) (Or.inr hopen)

theorem redirect_preserved {redirs : List (RedirNode α)} {sv : Redirtab} {rest : List Redirtab}
    {st : RedirState α} (hsound : Sound st) (hst : st.redirlist = sv :: rest)
    (hforks : ∀ redir ∈ redirs, redir.forks) (hsave : SavefdsWork cflag redirs st) :
    Preserved rest st (redirect cflag true redirs st) := by
  induction redirs generalizing sv st with
  | nil => exact ⟨hsound, fun sv hsv => ⟨sv, hsv, rfl⟩, fun _ _ _ => rfl⟩
  | cons redir redirs ih =>
    have hone := redirectOne_preserved hsound hst (hforks redir List.mem_cons_self) hsave.1
    have hsaves := hsave.2
    rw [redirect]
    generalize redirectOne cflag true redir st = res at hone hsaves ⊢
    obtain ⟨ok, st₁⟩ := res
    cases ok with
    | false => exact hone
    | true =>
      obtain ⟨sv₁, hsv₁, -⟩ := hone.frame sv hst
      exact hone.trans
        (ih hone.sound hsv₁ (fun r hr => hforks r (List.mem_cons_of_mem _ hr)) hsaves)

end Bootsh
