import Bootsh.Redir.Frame

/-! The descriptors of processes that are forked for a subshell or a pipeline. -/
namespace Bootsh

variable {α : Type} {cflag : Bool}

/-- The redirection can open its descriptor. -/
def RedirNode.opens : RedirNode α → Bool
  | .dup _ none => false
  | .dup fd (some f) => f ≠ fd
  | _ => true

/-- A turn of the loop of `redirect` without `REDIR_PUSH`. -/
structure Unpushed (redir : RedirNode α) (st st' : RedirState α) : Prop where
  redirlist : st'.redirlist = st.redirlist
  bits : st'.closedRedirs = st.closedRedirs
  others : ∀ k : ℕ, k ≠ redir.fd → st'.fds.file k = st.fds.file k
  closed : redir.opens = false → st.fds.file redir.fd = none → st'.fds.file redir.fd = none

theorem Opened.unpushed {redir : RedirNode α} {st : RedirState α} {newfd : NewFd} {t' : FdTable α}
    (hopened : Opened st.fds redir (some newfd) t')
    (hclosed : redir.opens = false → newfd = .closed) : Unpushed redir st
      (if newfd = .fd redir.fd then (true, { st with fds := t' })
      else ((dupredirect redir newfd t').1,
        { st with fds := (dupredirect redir newfd t').2 })).2 := by
  split_ifs with hfd
  · refine ⟨rfl, rfl, fun k hk => hopened.file_ne ?_, fun hopens => ?_⟩
    · rw [hfd]
      exact fun h => hk (NewFd.fd.inj h).symm
    · exact absurd ((hclosed hopens).symm.trans hfd) (fun h => by cases h)
  · refine ⟨rfl, rfl, fun k hk => hopened.dupredirect_ne hk rfl, fun hopens _ => ?_⟩
    obtain rfl := hclosed hopens
    exact dupredirect_closed hopened

theorem redirectOne_unpushed {redir : RedirNode α} (hforks : redir.forks) (st : RedirState α) :
    Unpushed redir st (redirectOne cflag false redir st).2 := by
  have hopened := @openredirect_opened _ cflag redir hforks st.fds
  unfold redirectOne
  generalize openredirect cflag redir st.fds = res at hopened ⊢
  obtain ⟨res, t'⟩ := res
  cases hopened with
  | failed => exact ⟨rfl, rfl, fun _ _ => rfl, fun _ h => h⟩
  | same fd => exact ⟨rfl, rfl, fun _ _ => rfl, fun _ h => h⟩
  | closed fd => exact (Opened.closed fd).unpushed fun _ => rfl
  | dup hne => exact (Opened.dup hne).unpushed fun h => by simp [RedirNode.opens, hne] at h
  | fresh d hredir hfree =>
    refine (Opened.fresh d hredir hfree).unpushed fun h => ?_
    cases redir with
    | dup fd dupfd => exact absurd rfl (hredir fd dupfd)
    | _ => cases h

theorem redirect_unpushed {redirs : List (RedirNode α)} {st : RedirState α}
    (hforks : ∀ redir ∈ redirs, redir.forks)
    (hopens : ∀ redir ∈ redirs, redir.opens → st.closedRedirs redir.fd = false)
    (hbits : ∀ i, st.closedRedirs i = true → user st.fds i = none) :
    (redirect cflag false redirs st).redirlist = st.redirlist ∧
      ∀ i, (redirect cflag false redirs st).closedRedirs i = true →
        user (redirect cflag false redirs st).fds i = none := by
  induction redirs generalizing st with
  | nil => exact ⟨rfl, hbits⟩
  | cons redir redirs ih =>
    have hone := @redirectOne_unpushed _ cflag redir (hforks redir List.mem_cons_self) st
    have hbits' : ∀ i, (redirectOne cflag false redir st).2.closedRedirs i = true →
        user (redirectOne cflag false redir st).2.fds i = none := by
      intro i hi
      rw [hone.bits] at hi
      by_cases hfd : i = redir.fd
      · subst hfd
        refine hone.closed ?_ (hbits _ hi)
        by_contra hopen
        rw [hopens redir List.mem_cons_self (by simpa using hopen)] at hi
        cases hi
      · exact (hone.others i fun h => hfd (Fin.ext h)).trans (hbits i hi)
    have hrest := @ih (redirectOne cflag false redir st).2
      (fun r hr => hforks r (List.mem_cons_of_mem _ hr))
      (fun r hr => by rw [hone.bits]; exact hopens r (List.mem_cons_of_mem _ hr)) hbits'
    have hlist := hone.redirlist
    rw [redirect]
    generalize redirectOne cflag false redir st = res at hrest hbits' hlist ⊢
    obtain ⟨ok, st₁⟩ := res
    cases ok with
    | false => exact ⟨hlist, hbits'⟩
    | true => exact ⟨hrest.1.trans hlist, hrest.2⟩

/-- The state of a process without frames. -/
theorem sound_of_bits {st : RedirState α} (hlist : st.redirlist = [])
    (hbits : ∀ i, st.closedRedirs i = true → user st.fds i = none) : Sound st := by
  refine ⟨hbits, ?_, ?_, ?_⟩ <;> rw [hlist]
  · exact fun rp hrp => absurd hrp List.not_mem_nil
  · exact fun rp hrp => absurd hrp List.not_mem_nil
  · exact List.Pairwise.nil

theorem evalsubshell_sound {redirs : List (RedirNode α)} {st : RedirState α} (hsound : Sound st)
    (hforks : ∀ redir ∈ redirs, redir.forks)
    (hopens : ∀ redir ∈ redirs, redir.opens → st.closedRedirs redir.fd = false) :
    Sound (evalsubshell cflag redirs st) ∧ (evalsubshell cflag redirs st).redirlist = [] := by
  obtain ⟨hlist, hbits⟩ := @redirect_unpushed _ cflag redirs (forkreset st) hforks hopens hsound.bits
  exact ⟨sound_of_bits hlist hbits, hlist⟩

/-- A temporary descriptor that is moved away leaves no trace. -/
theorem move_file {t u : FdTable α} {f fd j : ℕ} (hf : t.file f = none) (hj : j ≠ fd)
    (hu : j ≠ f → u.file j = t.file j) : (((u.dup2 f fd).getD u).close f).file j = t.file j := by
  by_cases hjf : j = f
  · rw [hjf, FdTable.close_self, hf]
  · rw [FdTable.close_ne hjf, getD_dup2_ne hj, hu hjf]

/-- What the process has changed once its pipes are its standard input and output. -/
theorem pipeChild_file {t u : FdTable α} {prevfd : Option ℕ} {pip : Option (ℕ × ℕ)}
    (hprev : ∀ p, prevfd = some p → t.file p = none)
    (hpip : ∀ a b, pip = some (a, b) → t.file a = none ∧ t.file b = none ∧ a ≠ b ∧ b ≠ 0)
    (hu : ∀ j, prevfd ≠ some j → (∀ a b, pip = some (a, b) → j ≠ a ∧ j ≠ b) →
      u.file j = t.file j) {j : ℕ} (hj₀ : j ≠ 0 ∨ prevfd = none) (hj₁ : j ≠ 1 ∨ pip = none) :
    (pipeChild prevfd pip u).file j = t.file j := by
  have hread : ∀ i, prevfd ≠ some i → (∀ a b, pip = some (a, b) → i ≠ b) →
      (closeReadEnd pip u).file i = t.file i := by
    intro i hp hb
    cases pip with
    | none => exact hu i hp fun a b h => by cases h
    | some ends =>
      obtain ⟨a, b⟩ := ends
      by_cases hia : i = a
      · rw [hia, (hpip a b rfl).1]
        exact FdTable.close_self
      · refine (FdTable.close_ne hia).trans (hu i hp fun a' b' h => ?_)
        obtain ⟨rfl, rfl⟩ := Prod.mk.inj (Option.some.inj h)
        exact ⟨hia, hb a b rfl⟩
  have hstdin : ∀ i, (i ≠ 0 ∨ prevfd = none) → (∀ a b, pip = some (a, b) → i ≠ b) →
      (dupStdin prevfd (closeReadEnd pip u)).file i = t.file i := by
    intro i hi hb
    cases prevfd with
    | none => exact hread i (fun h => by cases h) hb
    | some p =>
      have hi : i ≠ 0 := hi.resolve_right fun h => by cases h
      unfold dupStdin
      dsimp only
      split_ifs with hp
      · exact move_file (hprev p rfl) hi fun hip =>
          hread i (fun h => hip (Option.some.inj h).symm) hb
      · exact hread i (fun h => hi (by rw [← Option.some.inj h]; omega)) hb
  cases pip with
  | none => exact hstdin j hj₀ fun a b h => by cases h
  | some ends =>
    obtain ⟨a, b⟩ := ends
    obtain ⟨-, hb, -, hb₀⟩ := hpip a b rfl
    have hj₁ : j ≠ 1 := hj₁.resolve_right fun h => by cases h
    have hstdin' : j ≠ b → (dupStdin prevfd (closeReadEnd (some (a, b)) u)).file j = t.file j := by
      intro hjb
      refine hstdin j hj₀ fun a' b' h => ?_
      rw [← (Prod.mk.inj (Option.some.inj h)).2]
      exact hjb
    unfold pipeChild dupStdout
    dsimp only
    split_ifs with hb₁
    · exact move_file hb hj₁ hstdin'
    · exact hstdin' fun hjb => hj₁ (by omega)

/-- The process forked for a part of a pipeline, or the shell after an error. -/
theorem evalpipe_spec {k : ℕ} {prevfd : Option ℕ} {pipes : List (α × α)} {st : RedirState α}
    {t : FdTable α} (hprev : ∀ p, prevfd = some p → t.file p = none)
    (ht : ∀ j, prevfd ≠ some j → st.fds.file j = t.file j) (hlimit : st.fds.limit = t.limit) :
    (evalpipe k prevfd pipes st).closedRedirs = st.closedRedirs ∧
    ((evalpipe k prevfd pipes st).redirlist = [] ∨
      (evalpipe k prevfd pipes st).redirlist = st.redirlist ∧
        (evalpipe k prevfd pipes st).fds = t) ∧
    ∀ j : ℕ, (j ≠ 0 ∨ k = 0 ∧ prevfd = none) → (j ≠ 1 ∨ pipes.length ≤ k) →
      (evalpipe k prevfd pipes st).fds.file j = t.file j := by
  induction pipes generalizing k prevfd st with
  | nil =>
    rw [evalpipe]
    refine ⟨rfl, Or.inl rfl, fun j hj₀ _ => ?_⟩
    exact pipeChild_file hprev (fun a b h => by cases h) (fun i hi _ => ht i hi)
      (hj₀.imp_right And.right) (Or.inr rfl)
  | cons ends pipes ih =>
    -- without the previous pipe the table is that of the shell
    have hclose : ∀ {u : FdTable α} {j : ℕ}, (prevfd ≠ some j → u.file j = t.file j) →
        (prevfd.elim u u.close).file j = t.file j := by
      intro u j hu
      cases prevfd with
      | none => exact hu (fun h => by cases h)
      | some p =>
        by_cases hjp : j = p
        · rw [hjp, hprev p rfl]
          exact FdTable.close_self
        · exact (FdTable.close_ne hjp).trans (hu fun h => hjp (Option.some.inj h).symm)
    rw [evalpipe]
    cases hpipe : st.fds.pipe ends.1 ends.2 with
    | none =>
      have hst : prevfd.elim st st.close = { st with fds := prevfd.elim st.fds st.fds.close } := by
        cases prevfd <;> rfl
      have hfds : prevfd.elim st.fds st.fds.close = t := by
        refine FdTable.ext (funext fun j => hclose (ht j)) ?_
        cases prevfd <;> exact hlimit
      simp only [hst, hfds]
      exact ⟨trivial, Or.inr ⟨trivial, trivial⟩, fun _ _ _ => trivial⟩
    | some res =>
      obtain ⟨⟨a, b⟩, fds⟩ := res
      obtain ⟨ha, hb, hab, hb₀, rfl⟩ := FdTable.pipe_spec hpipe
      have hfree : ∀ {i : ℕ}, st.fds.file i = none → t.file i = none := by
        intro i hi
        by_cases hp : prevfd = some i
        · exact hprev i hp
        · rw [← ht i hp, hi]
      have hfile : ∀ {j : ℕ}, j ≠ a → j ≠ b → prevfd ≠ some j →
          ((st.fds.set a (some ends.1)).set b (some ends.2)).file j = t.file j := by
        intro j hja hjb hp
        rw [FdTable.set_ne _ hjb, FdTable.set_ne _ hja, ht j hp]
      cases k with
      | zero =>
        refine ⟨rfl, Or.inl rfl, fun j hj₀ hj₁ => ?_⟩
        refine pipeChild_file hprev ?_ ?_ (hj₀.imp_right And.right)
          (Or.inl (hj₁.resolve_right (by simp)))
        · intro a' b' h
          obtain ⟨rfl, rfl⟩ := Prod.mk.inj (Option.some.inj h)
          exact ⟨hfree ha, hfree hb, hab, hb₀⟩
        · intro i hi hne
          obtain ⟨hia, hib⟩ := hne a b rfl
          exact hfile hia hib hi
      | succ k =>
        have hulimit : ((st.fds.set a (some ends.1)).set b (some ends.2)).limit = t.limit := hlimit
        generalize (st.fds.set a (some ends.1)).set b (some ends.2) = u at hfile hulimit
        have hlimit' : ((prevfd.elim u u.close).close b).limit = u.limit := by
          cases prevfd <;> rfl
        obtain ⟨hbits, hlist, hfiles⟩ := @ih k (some a)
          { st with fds := (prevfd.elim u u.close).close b } (fun p hp => Option.some.inj hp ▸ hfree ha)
          (by
            intro j hja
            by_cases hjb : j = b
            · rw [hjb, hfree hb]
              exact FdTable.close_self
            · exact (FdTable.close_ne hjb).trans
                (hclose fun hp => hfile (fun h => hja (h ▸ rfl)) hjb hp))
          (hlimit'.trans hulimit)
        refine ⟨hbits, hlist, fun j hj₀ hj₁ => hfiles j (Or.inl ?_) ?_⟩
        · exact hj₀.resolve_right fun h => absurd h.1 (Nat.succ_ne_zero k)
        · exact hj₁.imp_right fun h => Nat.le_of_succ_le_succ h

theorem evalpipe_sound {k : ℕ} {pipes : List (α × α)} {st : RedirState α} (hsound : Sound st)
    (hstdin : k ≠ 0 → st.closedRedirs 0 = false)
    (hstdout : k < pipes.length → st.closedRedirs 1 = false) :
    Sound (evalpipe k none pipes st) ∧ ((evalpipe k none pipes st).redirlist = [] ∨
      (evalpipe k none pipes st).redirlist = st.redirlist ∧
        (evalpipe k none pipes st).fds = st.fds) := by
  obtain ⟨hbits, hlist, hfiles⟩ := @evalpipe_spec _ k none pipes st st.fds
    (fun p h => by cases h) (fun _ _ => rfl) rfl
  refine ⟨?_, hlist⟩
  rcases hlist with hlist | ⟨hlist, hfds⟩
  · refine sound_of_bits hlist fun i hi => ?_
    rw [hbits] at hi
    have hfile : (evalpipe k none pipes st).fds.file i = st.fds.file i := by
      refine hfiles i ?_ ?_
      · by_cases hk : k = 0
        · exact Or.inr ⟨hk, rfl⟩
        · refine Or.inl fun h => ?_
          obtain rfl : i = 0 := Fin.ext h
          rw [hstdin hk] at hi
          cases hi
      · by_cases hk : k < pipes.length
        · refine Or.inl fun h => ?_
          obtain rfl : i = 1 := Fin.ext h
          rw [hstdout hk] at hi
          cases hi
        · exact Or.inr (Nat.le_of_not_lt hk)
    exact hfile.trans (hsound.bits i hi)
  · have hst : evalpipe k none pipes st = st := by
      generalize evalpipe k none pipes st = st' at hbits hlist hfds
      cases st'
      cases st
      simp_all
    rw [hst]
    exact hsound

end Bootsh
