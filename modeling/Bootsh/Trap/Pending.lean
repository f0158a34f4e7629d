import Bootsh.Trap.Machine

/-!
No signal is lost: a mark in `gotsig` comes with a `pending_sig` that is set, or with a loop that
has still to look at the signal.
-/
namespace Bootsh.Trap

open Run

variable {s s' : State} {op : Op} {ev : Event} {k : ℕ} {stack : List Frame} {e : Exception}

/-- A loop of `dotrap` has still to look at the signal. -/
def Waiting (stack : List Frame) (k : ℕ) : Prop :=
  ∃ i status last_status acting, Frame.dotrap i status last_status acting ∈ stack ∧ i < k

/-- The evaluator is outside the loop. -/
def Outside (stack : List Frame) : Prop :=
  ∀ i status last_status acting, Frame.dotrap i status last_status acting ∉ stack

theorem not_waiting (h : Outside stack) : ¬ Waiting stack k := by
  rintro ⟨i, status, last_status, acting, hmem, -⟩
  exact h i status last_status acting hmem

def State.Noticed (s : State) : Prop :=
  ∀ k, s.gotsig k → (0 < k ∧ k < NSIG) ∧ (s.pending_sig ≠ 0 ∨ Waiting s.stack k)

/-- The frames that are left when an exception is caught. -/
def resumed (e : Exception) (stack : List Frame) : List Frame :=
  match unwind e stack with
  | .handler :: stack => stack
  | _ => []

/-- No signal is marked that only a loop outside `stack` has still to look at. -/
def State.Kept (s : State) (stack : List Frame) : Prop :=
  ∀ k, s.gotsig k → s.pending_sig ≠ 0 ∨ Waiting stack k

/-- What keeps the marks: an exception, or a child, does not leave a loop that alone has still to
look at a signal. -/
def State.RaiseOk (s : State) : Op → Prop
  | .sh_error => s.Kept (resumed .exerror s.stack)
  | .onint => s.Kept []
  | .exend => s.Kept []
  | .exitcmd _ => s.Kept []
  | .forkchild => s.Kept []
  | _ => True

/-! ### The parts of a step that leave the marks -/

/-- The marks stay, and the rest of the frames is as given. -/
structure Marks (s s' : State) : Prop where
  gotsig : s'.gotsig = s.gotsig
  pending : s'.pending_sig = s.pending_sig

theorem Marks.trans {s'' : State} (h : Marks s s') (h' : Marks s' s'') : Marks s s'' :=
  ⟨h'.gotsig.trans h.gotsig, h'.pending.trans h.pending⟩

theorem marks_exitreset (s : State) (e : Option Exception) : Marks s (s.exitreset e) := by
  rw [State.exitreset]
  split <;> exact ⟨rfl, rfl⟩

theorem marks_exitshell (s : State) : Marks s (s.exitshell).2 := by
  rw [State.exitshell]
  split
  · exact ⟨rfl, rfl⟩
  · have hreset := marks_exitreset { s with savestatus := s.exitstatus } none
    exact ⟨hreset.gotsig, hreset.pending⟩

theorem marks_exraise (s : State) (e : Exception) : Marks s (s.exraise e).2 := by
  rw [State.exraise]
  split
  · exact ⟨rfl, rfl⟩
  · exact (marks_exitreset s _).trans ⟨rfl, rfl⟩
  · have hreset : Marks s { s.exitreset (some e) with stack := [] } :=
      (marks_exitreset s _).trans ⟨rfl, rfl⟩
    dsimp only
    split
    · exact hreset.trans (marks_exitshell _)
    · exact hreset

theorem waiting_exraise (h : Waiting (resumed e s.stack) k) :
    Waiting (s.exraise e).2.stack k := by
  rw [resumed] at h
  rw [State.exraise]
  split at h
  case h_1 stack heq =>
    rw [heq]
    exact h
  case h_2 => exact absurd h (not_waiting fun _ _ _ _ => List.not_mem_nil)

theorem State.Noticed.of_marks (h : s.Noticed) (hmarks : Marks s s') (hkept : s.Kept s'.stack) :
    s'.Noticed := by
  intro k hk
  rw [hmarks.gotsig] at hk
  rw [hmarks.pending]
  exact ⟨(h k hk).1, hkept k hk⟩

theorem State.Noticed.kept (h : s.Noticed) {stack : List Frame}
    (hstack : ∀ k, Waiting s.stack k → Waiting stack k) : s.Kept stack :=
  fun k hk => (h k hk).2.imp_right (hstack k)

theorem kept_exraise (s₀ : State) (hstack : s₀.stack = s.stack)
    (hkept : s.Kept (resumed e s.stack)) : s.Kept (s₀.exraise e).2.stack := by
  refine fun k hk => (hkept k hk).imp_right fun hwait => ?_
  rw [← hstack] at hwait
  exact waiting_exraise hwait

theorem resumed_eq (h : e ≠ .exerror) (stack : List Frame) : resumed e stack = [] := by
  rw [resumed]
  induction stack with
  | nil => rfl
  | cons f stack ih =>
    cases f with
    | dotrap => exact ih
    | handler =>
      rw [unwind, if_neg h]
      exact ih
    | exitshell => rfl
    | subshell => rfl

/-! ### Steps -/

theorem noticed_scan {i : ℕ} {status last_status : ℤ} {stack : List Frame} (h : s.Noticed)
    (hstack : s.stack = .dotrap i status last_status none :: stack) :
    (s.scan i status last_status stack).2.Noticed := by
  have hsplit : ∀ k, Waiting s.stack k → i < k ∨ Waiting stack k := by
    rintro k ⟨n, st, last, acting, hmem, hlt⟩
    rw [hstack, List.mem_cons] at hmem
    rcases hmem with heq | hmem
    · cases heq
      exact .inl hlt
    · exact .inr ⟨n, st, last, acting, hmem, hlt⟩
  -- The loop goes on with the next signal.
  have hnext : ∀ k acting, k ≠ i + 1 → Waiting s.stack k →
      Waiting (.dotrap (i + 1) status last_status acting :: stack) k := by
    intro k acting hk hwait
    rcases hsplit k hwait with hlt | ⟨n, st, last, act, hmem, hlt⟩
    · exact ⟨i + 1, status, last_status, acting, List.mem_cons_self, by omega⟩
    · exact ⟨n, st, last, act, List.mem_cons_of_mem _ hmem, hlt⟩
  have hclear : ∀ k, Function.update s.gotsig (i + 1) false k = true →
      k ≠ i + 1 ∧ s.gotsig k = true := by
    intro k hk
    by_cases hki : k = i + 1
    · rw [hki, Function.update_self] at hk
      cases hk
    · rw [Function.update_of_ne hki] at hk
      exact ⟨hki, hk⟩
  rw [State.scan]
  by_cases hend : NSIG - 1 ≤ i
  · rw [if_pos hend]
    intro k hk
    obtain ⟨hrange, hwait⟩ := h k hk
    refine ⟨hrange, hwait.imp_right fun hwait => ?_⟩
    rcases hsplit k hwait with hik | hrest
    · have hlt := hrange.2
      omega
    · exact hrest
  · rw [if_neg hend]
    by_cases hgot : s.gotsig (i + 1) = true
    · rw [if_neg (by simp [hgot])]
      by_cases hskip : s.evalskip = .none
      · rw [if_neg (by simp [hskip])]
        dsimp only
        split
        · intro k hk
          obtain ⟨hki, hk⟩ := hclear k hk
          exact ⟨(h k hk).1, (h k hk).2.imp_right (hnext k none hki)⟩
        · intro k hk
          obtain ⟨hki, hk⟩ := hclear k hk
          exact ⟨(h k hk).1, (h k hk).2.imp_right (hnext k _ hki)⟩
      · rw [if_pos hskip]
        exact fun k hk => ⟨(h k hk).1, .inl (Nat.succ_ne_zero i)⟩
    · rw [if_pos hgot]
      intro k hk
      have hki : k ≠ i + 1 := by
        rintro rfl
        exact hgot hk
      exact ⟨(h k hk).1, (h k hk).2.imp_right (hnext k none hki)⟩

theorem noticed_dotrap (h : s.Noticed) : s.dotrap.Noticed := by
  rw [State.dotrap]
  split
  case isTrue => exact h
  case isFalse =>
    exact fun k hk => ⟨(h k hk).1, .inr ⟨0, _, _, none, List.mem_cons_self, (h k hk).1.1⟩⟩

theorem noticed_onsig {signo : ℕ} (h : s.Noticed) (hpos : 0 < signo) (hlt : signo < NSIG) :
    (s.onsig signo).Noticed := by
  rw [State.onsig]
  split
  case isTrue => exact h
  case isFalse =>
    refine fun k hk => ⟨?_, .inl (Nat.pos_iff_ne_zero.1 hpos)⟩
    by_cases hks : k = signo
    · rw [hks]
      exact ⟨hpos, hlt⟩
    · exact (h k (by simpa [Function.update_of_ne hks] using hk)).1

/-- Only `onsig`, `dotrap` and a round of its loop touch the marks. -/
theorem step_marks (hstep : s.step? op = some (ev, s')) :
    (∃ signo, 0 < signo ∧ signo < NSIG ∧ s' = s.onsig signo) ∨ s' = s.dotrap ∨
    (∃ i status last_status stack,
      s.stack = .dotrap i status last_status none :: stack ∧
      (ev, s') = s.scan i status last_status stack) ∨
    Marks s s' ∧ (s.Noticed → s.RaiseOk op → s.Kept s'.stack) := by
  have hsame : ∀ {ev₁ : Event} {s₁ : State}, some (ev₁, s₁) = some (ev, s') → Marks s s₁ →
      (s.Noticed → s.RaiseOk op → s.Kept s₁.stack) →
      Marks s s' ∧ (s.Noticed → s.RaiseOk op → s.Kept s'.stack) := fun heq hmarks hkept => by
    obtain rfl := congrArg Prod.snd (Option.some.inj heq)
    exact ⟨hmarks, hkept⟩
  have hstay : ∀ {stack}, (∀ k, Waiting s.stack k → Waiting stack k) → s.Noticed →
      s.RaiseOk op → s.Kept stack := fun hstack h _ => h.kept hstack
  cases op with
  | onsig signo =>
    obtain ⟨hcond, heq⟩ := Option.ite_none_right_eq_some.1 hstep
    obtain rfl := congrArg Prod.snd (Option.some.inj heq)
    exact .inl ⟨signo, hcond.2.1, hcond.2.2, rfl⟩
  | dotrap =>
    obtain ⟨-, heq⟩ := Option.ite_none_right_eq_some.1 hstep
    obtain rfl := congrArg Prod.snd (Option.some.inj heq)
    exact .inr (.inl rfl)
  | scan =>
    rw [State.step?] at hstep
    split at hstep
    case h_1 i status last_status stack hstack =>
      obtain ⟨-, heq⟩ := Option.ite_none_right_eq_some.1 hstep
      exact .inr (.inr (.inl ⟨i, status, last_status, stack, hstack, (Option.some.inj heq).symm⟩))
    case h_2 => cases hstep
  | endAction =>
    rw [State.step?] at hstep
    split at hstep
    case h_1 i status last_status found stack hstack =>
      obtain ⟨-, heq⟩ := Option.ite_none_right_eq_some.1 hstep
      refine .inr (.inr (.inr (hsame heq ⟨rfl, rfl⟩ (hstay ?_))))
      rintro k ⟨n, st, last, acting, hmem, hlt⟩
      rw [hstack, List.mem_cons] at hmem
      rcases hmem with heq | hmem
      · cases heq
        exact ⟨i, status, last_status, none, List.mem_cons_self, hlt⟩
      · exact ⟨n, st, last, acting, List.mem_cons_of_mem _ hmem, hlt⟩
    case h_2 => cases hstep
  | command status =>
    obtain ⟨-, heq⟩ := Option.ite_none_right_eq_some.1 hstep
    exact .inr (.inr (.inr (hsame heq ⟨rfl, rfl⟩ (hstay fun _ => id))))
  | skip skip =>
    obtain ⟨-, heq⟩ := Option.ite_none_right_eq_some.1 hstep
    exact .inr (.inr (.inr (hsame heq ⟨rfl, rfl⟩ (hstay fun _ => id))))
  | trapcmd signo action =>
    obtain ⟨-, heq⟩ := Option.ite_none_right_eq_some.1 hstep
    exact .inr (.inr (.inr (hsame heq ⟨rfl, rfl⟩ (hstay fun _ => id))))
  | enter =>
    obtain ⟨-, heq⟩ := Option.ite_none_right_eq_some.1 hstep
    refine .inr (.inr (.inr (hsame heq ⟨rfl, rfl⟩ (hstay ?_))))
    rintro k ⟨n, st, last, acting, hmem, hlt⟩
    exact ⟨n, st, last, acting, List.mem_cons_of_mem _ hmem, hlt⟩
  | leave =>
    rw [State.step?] at hstep
    split at hstep
    case h_1 stack hstack =>
      obtain ⟨-, heq⟩ := Option.ite_none_right_eq_some.1 hstep
      refine .inr (.inr (.inr (hsame heq ⟨rfl, rfl⟩ (hstay ?_))))
      rintro k ⟨n, st, last, acting, hmem, hlt⟩
      rw [hstack, List.mem_cons] at hmem
      exact ⟨n, st, last, acting, hmem.resolve_left (by simp), hlt⟩
    case h_2 => cases hstep
  | sh_error =>
    obtain ⟨-, heq⟩ := Option.ite_none_right_eq_some.1 hstep
    have hraise := marks_exraise { s with exitstatus := 2 } .exerror
    exact .inr (.inr (.inr (hsame heq ⟨hraise.gotsig, hraise.pending⟩ fun _ =>
      kept_exraise { s with exitstatus := 2 } rfl)))
  | onint =>
    obtain ⟨-, heq⟩ := Option.ite_none_right_eq_some.1 hstep
    have hraise := marks_exraise { s with exitstatus := 130 } .exint
    refine .inr (.inr (.inr (hsame heq ⟨hraise.gotsig, hraise.pending⟩ fun _ hok => ?_)))
    refine kept_exraise { s with exitstatus := 130 } rfl ?_
    rwa [resumed_eq (by decide)]
  | exend =>
    obtain ⟨-, heq⟩ := Option.ite_none_right_eq_some.1 hstep
    have hraise := marks_exraise s .exend
    refine .inr (.inr (.inr (hsame heq ⟨hraise.gotsig, hraise.pending⟩ fun _ hok => ?_)))
    refine kept_exraise s rfl ?_
    rwa [resumed_eq (by decide)]
  | exitcmd n =>
    obtain ⟨-, heq⟩ := Option.ite_none_right_eq_some.1 hstep
    have hraise := marks_exraise { s with savestatus := (n.map Int.ofNat).getD s.savestatus } .exexit
    refine .inr (.inr (.inr (hsame heq ⟨hraise.gotsig, hraise.pending⟩ fun _ hok => ?_)))
    refine kept_exraise { s with savestatus := (n.map Int.ofNat).getD s.savestatus } rfl ?_
    rwa [resumed_eq (by decide)]
  | eof =>
    obtain ⟨hcond, heq⟩ := Option.ite_none_right_eq_some.1 hstep
    have hexit := marks_exitshell s
    refine .inr (.inr (.inr (hsame heq ⟨hexit.gotsig, hexit.pending⟩ (hstay ?_))))
    rintro k ⟨n, st, last, acting, hmem, -⟩
    rw [hcond.2] at hmem
    cases hmem
  | endExit =>
    rw [State.step?] at hstep
    split at hstep
    case h_1 hstack =>
      obtain ⟨-, heq⟩ := Option.ite_none_right_eq_some.1 hstep
      have hreset := marks_exitreset { s with evalskip := .skipfuncdef } none
      refine .inr (.inr (.inr (hsame heq ⟨hreset.gotsig, hreset.pending⟩ (hstay ?_))))
      rintro k ⟨n, st, last, acting, hmem, -⟩
      rw [hstack, List.mem_singleton] at hmem
      cases hmem
    case h_2 => cases hstep
  | forkchild =>
    obtain ⟨-, heq⟩ := Option.ite_none_right_eq_some.1 hstep
    refine .inr (.inr (.inr (hsame heq ⟨rfl, rfl⟩ fun _ hok k hk => ?_)))
    exact (hok k hk).imp_right fun hwait => absurd hwait (not_waiting fun _ _ _ _ => List.not_mem_nil)

theorem State.Noticed.step? (h : s.Noticed) (hok : s.RaiseOk op) (hstep : s.step? op = some (ev, s')) :
    s'.Noticed := by
  rcases step_marks hstep with ⟨signo, hpos, hlt, rfl⟩ | rfl |
    ⟨i, status, last_status, stack, hstack, hscan⟩ | ⟨hmarks, hkept⟩
  · exact noticed_onsig h hpos hlt
  · exact noticed_dotrap h
  · rw [show s' = (s.scan i status last_status stack).2 from congrArg Prod.snd hscan]
    exact noticed_scan h hstack
  · exact h.of_marks hmarks (hkept h hok)

/-- A mark is only taken away where the action is started, or where there is no trap any more. -/
def Served (s : State) (k : ℕ) (ev : Event) : Prop :=
  ev = .ran k ∧ (s.trap k).isSome ∨ ev = .dropped k ∧ s.trap k = none

theorem served_scan {i : ℕ} {status last_status : ℤ} {stack : List Frame} (hk : s.gotsig k)
    (hclear : ¬ (s.scan i status last_status stack).2.gotsig k) :
    Served s k (s.scan i status last_status stack).1 := by
  rw [State.scan] at hclear ⊢
  split at hclear
  case isTrue => exact absurd hk hclear
  case isFalse hend =>
    rw [if_neg hend]
    split at hclear
    case isTrue => exact absurd hk hclear
    case isFalse hgot =>
      rw [if_neg hgot]
      split at hclear
      case isTrue => exact absurd hk hclear
      case isFalse hskip =>
        have hki : k = i + 1 := by
          by_contra hki
          cases htrap : s.trap (i + 1) <;>
            simp [htrap, Function.update_of_ne hki, hk] at hclear
        rw [if_neg hskip]
        dsimp only
        subst hki
        cases htrap : s.trap (i + 1) with
        | none => exact .inr ⟨rfl, htrap⟩
        | some action => exact .inl ⟨rfl, by rw [htrap]; rfl⟩

theorem served_step (hk : s.gotsig k) (hclear : ¬ (s.step op).2.gotsig k) :
    Served s k (s.step op).1 := by
  rw [State.step] at hclear ⊢
  cases hstep : s.step? op with
  | none =>
    rw [hstep] at hclear
    exact absurd hk hclear
  | some r =>
    obtain ⟨ev, s'⟩ := r
    rw [hstep] at hclear
    change ¬ s'.gotsig k at hclear
    change Served s k ev
    rcases step_marks hstep with ⟨signo, -, -, rfl⟩ | rfl |
      ⟨i, status, last_status, stack, -, hscan⟩ | ⟨hmarks, -⟩
    · refine absurd ?_ hclear
      rw [State.onsig]
      split
      · exact hk
      · by_cases hks : k = signo
        · simp [hks]
        · simpa [Function.update_of_ne hks] using hk
    · refine absurd ?_ hclear
      rw [State.dotrap]
      split <;> exact hk
    · rw [show ev = (s.scan i status last_status stack).1 from congrArg Prod.fst hscan]
      rw [show s' = (s.scan i status last_status stack).2 from congrArg Prod.snd hscan] at hclear
      exact served_scan hk hclear
    · exact absurd (by rwa [hmarks.gotsig]) hclear

/-! ### Runs -/

/-- A shell that has just been started. -/
structure State.Fresh (s : State) : Prop where
  gotsig : ∀ k, s.gotsig k = false
  evalskip : s.evalskip = .none
  exitstatus : 0 ≤ s.exitstatus
  savestatus : s.savestatus = -1
  stack : s.stack = []
  exited : s.exited = none

theorem State.Fresh.noticed (h : s.Fresh) : s.Noticed := fun k hk => by
  rw [h.gotsig] at hk
  cases hk

theorem State.Noticed.step (h : s.Noticed) (hok : s.RaiseOk op) : (s.step op).2.Noticed := by
  rw [State.step]
  cases hstep : s.step? op with
  | none => exact h
  | some r => exact h.step? hok hstep

/-- The signals that a run has dealt with: it has started their actions, or it has found them
without a trap. -/
def served (k : ℕ) (evs : List Event) : Prop := Event.ran k ∈ evs ∨ Event.dropped k ∈ evs

theorem run_served {ops : List Op} (hk : s.gotsig k) (hclear : ¬ (run State.step s ops).2.gotsig k) :
    served k (run State.step s ops).1 := by
  induction ops generalizing s with
  | nil => exact absurd hk hclear
  | cons op ops ih =>
    rw [run] at hclear ⊢
    by_cases hnext : (s.step op).2.gotsig k = true
    · exact (ih hnext hclear).imp (List.mem_cons_of_mem _) (List.mem_cons_of_mem _)
    · rcases served_step hk hnext with ⟨hev, -⟩ | ⟨hev, -⟩
      · exact .inl (by simp [hev])
      · exact .inr (by simp [hev])

/-! ### A loop that is not disturbed -/

/-- The rounds of a loop whose actions do nothing. -/
def rounds : ℕ → List Op
  | 0 => []
  | n + 1 => .scan :: .endAction :: rounds n

/-- Two steps of a loop that is not disturbed: the signal is looked at, and its action, if any, is
done. -/
theorem round_spec {i : ℕ} {status last_status : ℤ} (hstack : s.stack =
      .dotrap i status last_status none :: stack) (hexit : s.exited = none)
    (hskip : s.evalskip = .none) (hlt : i < NSIG - 1) :
    ∃ s₁, (run State.step s [.scan, .endAction]).2 = s₁ ∧
      s₁.stack = .dotrap (i + 1) status last_status none :: stack ∧ s₁.exited = none ∧
      s₁.evalskip = .none ∧ s₁.trap = s.trap ∧
      s₁.gotsig = Function.update s.gotsig (i + 1) false := by
  have hscan : s.step .scan = s.scan i status last_status stack := by
    rw [State.step, State.step?, hstack]
    simp [hexit]
  have hidle : ∀ {s₁ : State}, s₁.stack = .dotrap (i + 1) status last_status none :: stack →
      (s₁.step .endAction).2 = s₁ := fun hs₁ => by
    rw [State.step, State.step?, hs₁]
    rfl
  refine ⟨_, rfl, ?_⟩
  rw [run, run, run, hscan, State.scan, if_neg (by omega)]
  by_cases hgot : s.gotsig (i + 1) = true
  · rw [if_neg (by simp [hgot]), if_neg (by simp [hskip])]
    dsimp only
    cases htrap : s.trap (i + 1) with
    | none =>
      dsimp only
      rw [hidle rfl]
      exact ⟨rfl, hexit, hskip, rfl, rfl⟩
    | some action =>
      simp only [State.step, State.step?, hexit, if_true, Option.getD_some]
      exact ⟨trivial, trivial, hskip, trivial, trivial⟩
  · rw [if_pos hgot]
    dsimp only
    rw [hidle rfl]
    refine ⟨rfl, hexit, hskip, rfl, ?_⟩
    exact (Function.update_eq_self_iff.2 (by simpa using hgot)).symm

theorem run_append (s : State) (ops ops' : List Op) :
    (run State.step s (ops ++ ops')).2 =
      (run State.step (run State.step s ops).2 ops').2 := by
  induction ops generalizing s with
  | nil => rfl
  | cons op ops ih => exact ih _

/-- A loop that is not disturbed comes to its end, and leaves no mark behind it. -/
theorem rounds_spec {n i : ℕ} {status last_status : ℤ} (hstack : s.stack =
      .dotrap i status last_status none :: stack) (hexit : s.exited = none)
    (hskip : s.evalskip = .none) (hn : i + n = NSIG - 1) :
    (run State.step s (rounds n ++ [.scan])).2.stack = stack ∧
      ∀ k, (run State.step s (rounds n ++ [.scan])).2.gotsig k →
        s.gotsig k ∧ ¬ (i < k ∧ k < NSIG) := by
  induction n generalizing s i with
  | zero =>
    have hscan : s.step .scan = s.scan i status last_status stack := by
      rw [State.step, State.step?, hstack]
      simp [hexit]
    rw [rounds, List.nil_append, run, run, hscan, State.scan, if_pos (by omega)]
    exact ⟨rfl, fun k hk => ⟨hk, by omega⟩⟩
  | succ n ih =>
    obtain ⟨s₁, hrun, hstack₁, hexit₁, hskip₁, -, hgot₁⟩ :=
      round_spec hstack hexit hskip (by omega)
    have hsplit : rounds (n + 1) ++ [.scan] = [.scan, .endAction] ++ (rounds n ++ [.scan]) := rfl
    rw [hsplit, run_append, hrun]
    obtain ⟨hfin, hmarks⟩ := ih hstack₁ hexit₁ hskip₁ (by omega)
    refine ⟨hfin, fun k hk => ?_⟩
    obtain ⟨hk₁, hrange⟩ := hmarks k hk
    rw [hgot₁] at hk₁
    have hki : k ≠ i + 1 := by
      rintro rfl
      simp at hk₁
    rw [Function.update_of_ne hki] at hk₁
    exact ⟨hk₁, by omega⟩

/-- What `dotrap` does where nothing disturbs it. -/
def quietDotrap : List Op := .dotrap :: (rounds (NSIG - 1) ++ [.scan])

theorem quietDotrap_spec (h : s.Noticed) (hout : Outside s.stack) (heval : s.evaluates)
    (hskip : s.evalskip = .none) {k : ℕ} (hk : s.gotsig k) :
    served k (run State.step s quietDotrap).1 ∧ (run State.step s quietDotrap).2.stack = s.stack := by
  have hpending : s.pending_sig ≠ 0 := (h k hk).2.resolve_right (not_waiting hout)
  have hexit : s.exited = none := by
    rw [State.evaluates, Bool.and_eq_true] at heval
    simpa using heval.1
  have hstep : (s.step .dotrap).2 = s.dotrap := by
    rw [State.step, State.step?, if_pos heval]
    rfl
  have hstack : s.dotrap.stack =
      .dotrap 0 (if s.savestatus < 0 then s.exitstatus else s.savestatus) s.savestatus none ::
        s.stack := by
    rw [State.dotrap, if_neg hpending]
  have hrounds : (run State.step s.dotrap (rounds (NSIG - 1) ++ [.scan])).2.stack = s.stack ∧
      ∀ k, (run State.step s.dotrap (rounds (NSIG - 1) ++ [.scan])).2.gotsig k →
        s.dotrap.gotsig k ∧ ¬ (0 < k ∧ k < NSIG) := by
    refine rounds_spec hstack ?_ ?_ (Nat.zero_add _)
    · rw [State.dotrap, if_neg hpending]
      exact hexit
    · rw [State.dotrap, if_neg hpending]
      exact hskip
  have hrun : (run State.step s quietDotrap).2 =
      (run State.step s.dotrap (rounds (NSIG - 1) ++ [.scan])).2 := by
    rw [quietDotrap, run, hstep]
  refine ⟨run_served hk fun hleft => ?_, by rw [hrun, hrounds.1]⟩
  rw [hrun] at hleft
  exact (hrounds.2 k hleft).2 (h k hk).1

theorem initState_fresh : initState.Fresh := ⟨fun _ => rfl, rfl, Int.le_refl 0, rfl, rfl, rfl⟩

/-- A signal that has a trap arrives. -/
def trappedSignal : List Op := [.trapcmd 10 (some ['x']), .onsig 10]

/-- Two signals arrive inside a builtin that survives errors. The action of the first fails, and
the loop that has still to look at the second is left. -/
def failingAction : List Op :=
  [.trapcmd 10 (some ['x']), .trapcmd 12 (some ['y']), .enter, .onsig 10, .onsig 12, .dotrap] ++
    List.replicate 10 .scan ++ [.sh_error]

end Bootsh.Trap
