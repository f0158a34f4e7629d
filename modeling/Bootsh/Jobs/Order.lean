import Bootsh.Jobs.Step

/-!
The order of the job list. `stoppedjobs` looks at its head only, so that the stopped jobs have to
come first.
-/
namespace Bootsh.Jobs

variable {s s' : Sys} {l l' : List ℕ} {i k : ℕ} {op : Op} {t' : Jobs} {j : Job}

/-- The job at `i` is being made or waited for. A background job with all its processes is
not. -/
def Sys.Exempt (s : Sys) (i : ℕ) : Prop :=
  ∃ f ∈ s.fg, f.jp = s.jobs.jobtab + i ∧ ¬ (f.left = 0 ∧ f.mode = .bg)

/-- A stopped job comes behind the job at `i`. -/
def Sys.Ahead (s : Sys) (i : ℕ) : Prop :=
  ∃ l k, s.jobs.Listed l ∧ [i, k].Sublist l ∧ s.jobs.stopped k

/-- What keeps the stopped jobs in front. A stopped job that is ahead of another must not end, nor
may a job that is ahead of a stopped one be left running. -/
def Sys.OrderOk (s : Sys) : Op → Prop
  | .waitone _ a => ∀ i j, Active s.jobs i j → a.pid ∈ j.ps.map (·.pid) → j.state = .stopped →
      stateOf (setStatus a.pid a.status j.ps) = .done → s.Exempt i ∨ ¬ s.Ahead i
  | .fg jp tty => tty ∨ ∀ i, jp = s.jobs.jobtab + i → s.jobs.stopped i → ¬ s.Ahead i
  | .pipeFailed => ∀ i, s.Exempt i → ¬ s.Ahead i
  | .waitforjob => ∀ i j, s.Exempt i → Active s.jobs i j → j.state = .running → ¬ s.Ahead i
  | _ => True

/-- Every job ahead of a stopped one is stopped, but for the one that is waited for. -/
def Sys.StoppedFirst (s : Sys) (l : List ℕ) : Prop :=
  l.Pairwise fun i k => s.jobs.stopped k → s.jobs.stopped i ∨ s.Exempt i

theorem pairwise_not_ahead (h : s.jobs.Listed l) (hi : ¬ s.Ahead i) :
    l.Pairwise fun a b => a = i → ¬ s.jobs.stopped b := by
  rw [List.pairwise_iff_forall_sublist]
  rintro a b hsub rfl hb
  exact hi ⟨l, b, h, hsub, hb⟩

theorem stopped_update (h : t'.job? = Function.update s.jobs.job? i (some j)) :
    t'.stopped k = if k = i then decide (j.state = .stopped) else s.jobs.stopped k := by
  rw [stopped, h]
  by_cases hk : k = i
  · subst hk
    rw [Function.update_self, if_pos rfl]
    rfl
  · rw [Function.update_of_ne hk, if_neg hk, stopped]

/-- The pairs in order stay in order where the stopped jobs stay as they are. -/
theorem Sys.StoppedFirst.mono (h : s.StoppedFirst l) (hsub : l'.Sublist l)
    (hstopped : ∀ k ∈ l', s'.jobs.stopped k = s.jobs.stopped k)
    (hexempt : ∀ k ∈ l', s.Exempt k → s'.Exempt k) : s'.StoppedFirst l' := by
  refine (h.sublist hsub).imp_of_mem fun {a b} ha hb hab hstop => ?_
  rw [hstopped b hb] at hstop
  rw [hstopped a ha]
  exact (hab hstop).imp_right (hexempt a ha)

theorem not_stopped_of_dropWhile {p : ℕ → Bool} (h : l.Pairwise fun a b => p b → p a)
    (hk : k ∈ l.dropWhile p) : ¬ p k := by
  induction l with
  | nil => simp at hk
  | cons a l ih =>
    rw [List.pairwise_cons] at h
    by_cases ha : p a = true
    · rw [List.dropWhile_cons_of_pos ha] at hk
      exact ih h.2 hk
    · rw [List.dropWhile_cons_of_neg ha] at hk
      rcases List.mem_cons.1 hk with rfl | hk
      · exact ha
      · exact fun hp => ha (h.1 k hk hp)

/-- After the stopped jobs of a list in order there is a place for any job. -/
theorem stoppedFirst_order (h : l.Pairwise fun a b => s.jobs.stopped b → s.jobs.stopped a)
    (hstopped : ∀ k ∈ l, s'.jobs.stopped k = s.jobs.stopped k) :
    s'.StoppedFirst (s.jobs.order .running i l) := by
  have htake : ∀ k ∈ l.takeWhile s.jobs.stopped, s'.jobs.stopped k := fun k hk => by
    rw [hstopped k ((List.takeWhile_sublist _).subset hk)]
    exact List.mem_takeWhile_imp hk
  have hdrop : ∀ k ∈ l.dropWhile s.jobs.stopped, ¬ s'.jobs.stopped k := fun k hk => by
    rw [hstopped k ((List.dropWhile_sublist _).subset hk)]
    exact not_stopped_of_dropWhile h hk
  rw [Sys.StoppedFirst, order, List.pairwise_append, List.pairwise_cons]
  refine ⟨?_, ⟨?_, ?_⟩, ?_⟩
  · exact List.pairwise_of_forall_mem_list fun a ha _ _ _ => .inl (htake a ha)
  · exact fun b hb hstop => absurd hstop (hdrop b hb)
  · exact List.pairwise_of_forall_mem_list fun _ _ b hb hstop => absurd hstop (hdrop b hb)
  · exact fun a ha _ _ _ => .inl (htake a ha)

theorem Only.stopped_of_ne (h : Only s.jobs t' i j) (hk : k ≠ i) :
    t'.stopped k = s.jobs.stopped k := by
  rw [stopped_update h.job, if_neg hk]

theorem Only.stopped_self (h : Only s.jobs t' i j) :
    t'.stopped i = decide (j.state = .stopped) := by
  rw [stopped_update h.job, if_pos rfl]

theorem ne_of_mem_erase (h : s.jobs.Listed l) (hk : k ∈ l.erase i) : k ≠ i :=
  (h.nodup.mem_erase_iff.1 hk).1

/-- No job but the one of the foreground is exempt. -/
theorem exempt_eq {f : Foreground} (hfg : s.fg = some f) (hjp : f.jp = s.jobs.jobtab + i)
    (h : s.Exempt k) : k = i := by
  obtain ⟨f', hf', hjp', -⟩ := h
  obtain rfl : f = f' := Option.some.inj (hfg.symm.trans hf')
  omega

theorem not_exempt (hfg : s.fg = none) : ¬ s.Exempt k := by
  rintro ⟨f, hf, -⟩
  rw [hfg] at hf
  cases hf

/-- The list without the job of the foreground is in order by itself. -/
theorem Sys.StoppedFirst.erase (h : s.StoppedFirst l) (hl : s.jobs.Listed l)
    (hexempt : ∀ k, s.Exempt k → k = i) :
    (l.erase i).Pairwise fun a b => s.jobs.stopped b → s.jobs.stopped a := by
  refine (h.sublist List.erase_sublist).imp_of_mem fun {a b} ha _ hab hstop => ?_
  rcases hab hstop with hab | hab
  · exact hab
  · exact absurd (hexempt a hab) (ne_of_mem_erase hl ha)

theorem Sys.StoppedFirst.of_strict {l : List ℕ}
    (h : l.Pairwise fun a b => s.jobs.stopped b → s.jobs.stopped a)
    (hstopped : ∀ k ∈ l, s'.jobs.stopped k = s.jobs.stopped k) : s'.StoppedFirst l := by
  refine h.imp_of_mem fun {a b} ha hb hab hstop => ?_
  rw [hstopped b hb] at hstop
  rw [hstopped a ha]
  exact .inl (hab hstop)

theorem made_stopped (h : Made s.jobs t' i) (hk : k ≠ i) : t'.stopped k = s.jobs.stopped k := by
  rcases h.other k hk with heq | ⟨hnone, hzero⟩
  · rw [stopped, heq, stopped]
  · rw [stopped, hzero, stopped, hnone]
    rfl

/-- The reported job goes to the head, or it stays where it is and only an end can harm. -/
theorem reported_order {a : Answer} {s' : Sys} (h : s.StoppedFirst l) (hl : s.jobs.Listed l)
    (hj : Active s.jobs i j) (hi : i ∈ l) (hhit : a.pid ∈ j.ps.map (·.pid))
    (hjobs : s'.jobs = t') (hfg : s'.fg = s.fg) (honly : Only s.jobs t' i (received j a))
    (hok : a.pid ∈ j.ps.map (·.pid) → j.state = .stopped →
      stateOf (setStatus a.pid a.status j.ps) = .done → s.Exempt i ∨ ¬ s.Ahead i) :
    s'.StoppedFirst (if Stops j a then i :: l.erase i else l) := by
  subst hjobs
  have hexempt : ∀ k, s.Exempt k → s'.Exempt k := by
    rintro k ⟨f, hf, hjp, hmode⟩
    exact ⟨f, by rwa [hfg], by rw [honly.jobtab, hjp], hmode⟩
  have hself : s.jobs.stopped i = decide (j.state = .stopped) := by
    rw [stopped, hj.job]
    rfl
  by_cases hstops : Stops j a
  · have hi' : s'.jobs.stopped i = true := by
      rw [honly.stopped_self, received, hstops.1]
      rfl
    rw [if_pos hstops, Sys.StoppedFirst, List.pairwise_cons]
    refine ⟨fun _ _ _ => .inl hi', ?_⟩
    exact Sys.StoppedFirst.mono h List.erase_sublist
      (fun k hk => honly.stopped_of_ne (ne_of_mem_erase hl hk)) fun k _ => hexempt k
  · rw [if_neg hstops]
    by_cases hsame : s'.jobs.stopped i = s.jobs.stopped i
    · refine Sys.StoppedFirst.mono h (List.Sublist.refl l) (fun k _ => ?_) fun k _ => hexempt k
      by_cases hk : k = i
      · rw [hk, hsame]
      · exact honly.stopped_of_ne hk
    · -- The stopped job has ended.
      obtain ⟨hstop, hdone⟩ : j.state = .stopped ∧
          stateOf (setStatus a.pid a.status j.ps) = .done := by
        rw [honly.stopped_self, hself, received] at hsame
        rw [Stops] at hstops
        cases hst : stateOf (setStatus a.pid a.status j.ps) <;> cases hjs : j.state <;>
          simp_all
      have hi' : ¬ s'.jobs.stopped i := by
        rw [honly.stopped_self, received, hdone]
        simp
      rcases hok hhit hstop hdone with hex | hahead
      · refine h.imp_of_mem fun {b c} _ _ hbc hc => ?_
        by_cases hb : b = i
        · exact .inr (hb ▸ hexempt i hex)
        · have hci : c ≠ i := by
            rintro rfl
            exact hi' hc
          rw [honly.stopped_of_ne hci] at hc
          rw [honly.stopped_of_ne hb]
          exact (hbc hc).imp_right (hexempt b)
      · refine (h.and (pairwise_not_ahead hl hahead)).imp_of_mem fun {b c} _ _ hbc hc => ?_
        have hci : c ≠ i := by
          rintro rfl
          exact hi' hc
        rw [honly.stopped_of_ne hci] at hc
        by_cases hb : b = i
        · exact absurd hc (hbc.2 hb)
        · rw [honly.stopped_of_ne hb]
          exact (hbc.1 hc).imp_right (hexempt b)

theorem Effect.stoppedFirst (h : s.StoppedFirst l) (hl : s.jobs.Listed l) (hok : s.OrderOk op)
    (heff : Effect s l op s' l') : s'.StoppedFirst l' := by
  cases heff with
  | @makejob i t' nprocs mode base hidle hnprocs hmade =>
    have hexempt : Sys.Exempt { s with
        jobs := t', fg := some { jp := t'.jobtab + i, left := nprocs, mode := mode } } i :=
      ⟨_, rfl, rfl, fun hleft => hnprocs hleft.1⟩
    rw [Sys.StoppedFirst, List.pairwise_cons]
    refine ⟨fun _ _ _ => .inr hexempt, ?_⟩
    refine Sys.StoppedFirst.of_strict
      (Sys.StoppedFirst.erase h hl fun k hk => absurd hk (not_exempt hidle))
      fun k hk => made_stopped hmade (ne_of_mem_erase hl hk)
  | @fork f i j t' pid cmd p hfg hleft hjp hi hj _ _ _ _ honly =>
    have hself : t'.stopped i = s.jobs.stopped i := by
      rw [honly.stopped_self, stopped, hj]
      rfl
    split
    case isTrue hmode =>
      exact stoppedFirst_order (Sys.StoppedFirst.erase h hl fun k => exempt_eq hfg hjp)
        fun k hk => honly.stopped_of_ne (ne_of_mem_erase hl hk)
    case isFalse hmode =>
      refine Sys.StoppedFirst.mono h (List.Sublist.refl l) (fun k _ => ?_) fun k _ hk => ?_
      · by_cases hki : k = i
        · rw [hki]
          exact hself
        · exact honly.stopped_of_ne hki
      · obtain rfl := exempt_eq hfg hjp hk
        refine ⟨_, rfl, ?_, fun hbg => hmode hbg.2⟩
        exact hjp.trans (congrArg (· + k) honly.jobtab.symm)
  | @forkFailed f i j t' pid cmd hfg hjp hi hj hpid honly =>
    exact Sys.StoppedFirst.of_strict (Sys.StoppedFirst.erase h hl fun k => exempt_eq hfg hjp)
      fun k hk => honly.stopped_of_ne (ne_of_mem_erase hl hk)
  | forkNoJob => exact h
  | @pipeFailed f hfg hleft =>
    have hbefore : ∀ a b, s.Exempt a → s.jobs.stopped b → ¬ [a, b].Sublist l :=
      fun a b ha hb hsub => hok a ha ⟨l, b, hl, hsub, hb⟩
    rw [Sys.StoppedFirst, List.pairwise_iff_forall_sublist] at h ⊢
    intro a b hsub hstop
    exact (h hsub hstop).imp_right fun ha => absurd hsub (hbefore a b ha hstop)
  | @background f hfg hleft hmode =>
    refine h.imp fun {a b} hab hstop => .inl ((hab hstop).resolve_right ?_)
    rintro ⟨f', hf', -, hbg⟩
    obtain rfl : f = f' := Option.some.inj (hfg.symm.trans hf')
    exact hbg ⟨hleft, hmode⟩
  | nothing => exact h
  | @reported flag a i j t' _ _ _ hj hi hhit honly =>
    exact reported_order h hl hj hi hhit rfl rfl honly (hok i j hj)
  | @finished f i j t' hfg hjp hi hj hdone honly =>
    exact Sys.StoppedFirst.of_strict (Sys.StoppedFirst.erase h hl fun k => exempt_eq hfg hjp)
      fun k hk => honly.stopped_of_ne (ne_of_mem_erase hl hk)
  | @left f i j hfg hjp hi hj hdone =>
    rw [Sys.StoppedFirst, List.pairwise_iff_forall_sublist] at h ⊢
    intro a b hsub hstop
    rcases h hsub hstop with ha | ha
    · exact .inl ha
    · obtain rfl := exempt_eq hfg hjp ha
      refine .inl ?_
      change (s.jobs.job? a).any _ = true
      rw [hj]
      cases hstate : j.state with
      | running =>
        obtain ⟨j', hj', hused⟩ := hl.job hi
        obtain rfl : j = j' := Option.some.inj (hj.symm.trans hj')
        exact absurd ⟨l, b, hl, hsub, hstop⟩ (hok a j ha ⟨hj, hused, hdone⟩ hstate)
      | stopped => simp [hstate]
      | done => exact absurd hstate hdone
  | @fgDone i j jp tty hidle hjp hi hj hdone =>
    exact h.imp fun {a b} hab hstop => .inl ((hab hstop).resolve_right (not_exempt hidle))
  | @fg i j jp t' hidle hjp hi hj hdone honly =>
    refine h.imp fun {a b} hab hstop => ?_
    by_cases ha : a = i
    · refine .inr ⟨_, rfl, ?_, fun hbg => by simp at hbg⟩
      rw [ha, hjp]
      exact congrArg (· + i) honly.jobtab.symm
    · have hb : b ≠ i := by
        rintro rfl
        rw [honly.stopped_self] at hstop
        simp [resumed] at hstop
      rw [honly.stopped_of_ne hb] at hstop
      rw [honly.stopped_of_ne ha]
      exact .inl ((hab hstop).resolve_right (not_exempt hidle))
  | @fgFailed i j jp t' hidle hjp hi hj hdone honly =>
    rw [Sys.StoppedFirst, List.pairwise_iff_forall_sublist] at h ⊢
    intro a b hsub hstop
    have hb : b ≠ i := by
      rintro rfl
      rw [honly.stopped_self] at hstop
      simp at hstop
    rw [honly.stopped_of_ne hb] at hstop
    have hstopa := (h hsub hstop).resolve_right (not_exempt hidle)
    by_cases ha : a = i
    · subst ha
      have hahead : s.Ahead a := ⟨l, b, hl, hsub, hstop⟩
      exact absurd hahead ((hok.resolve_left (by simp)) a hjp hstopa)
    · rw [honly.stopped_of_ne ha]
      exact .inl hstopa
  | @bg i j jp t' hidle hi hj honly =>
    exact stoppedFirst_order (Sys.StoppedFirst.erase h hl fun k hk => absurd hk (not_exempt hidle))
      fun k hk => honly.stopped_of_ne (ne_of_mem_erase hl hk)
  | @shown i j jp t' hidle hi hj hdone honly =>
    exact Sys.StoppedFirst.of_strict
      (Sys.StoppedFirst.erase h hl fun k hk => absurd hk (not_exempt hidle))
      fun k hk => honly.stopped_of_ne (ne_of_mem_erase hl hk)
  | @noted op i j j' t' _ hidle hi hj _ hstate _ honly =>
    refine Sys.StoppedFirst.mono h (List.Sublist.refl l) (fun k _ => ?_)
      fun k _ hk => absurd hk (not_exempt hidle)
    by_cases hki : k = i
    · subst hki
      rw [honly.stopped_self, hstate, stopped, hj]
      rfl
    · exact honly.stopped_of_ne hki
  | @settings op t' b hjob htab _ =>
    refine Sys.StoppedFirst.mono h (List.Sublist.refl l) (fun k _ => ?_) ?_
    · change t'.stopped k = _
      rw [stopped, hjob, stopped]
    · rintro k _ ⟨f, hf, hjp, hmode⟩
      exact ⟨f, hf, hjp.trans (congrArg (· + k) htab.symm), hmode⟩
  | forkchild => exact List.Pairwise.nil

/-! ### Runs -/

/-- A shell without jobs. It may have inherited children. -/
structure Sys.Fresh (s : Sys) : Prop where
  curjob : s.jobs.curjob = none
  unused : ∀ j ∈ s.jobs.tab, j.used = false
  fg : s.fg = none

theorem Sys.Fresh.tidy (h : s.Fresh) : s.Tidy [] := by
  refine ⟨⟨h.curjob, fun i => ?_⟩, by simp [h.fg]⟩
  refine ⟨fun hi => absurd hi List.not_mem_nil, ?_⟩
  rintro ⟨j, hj, hused⟩
  rw [job?, Option.map_eq_some_iff] at hj
  obtain ⟨j', hj', rfl⟩ := hj
  have hunused := h.unused j' (List.mem_of_getElem? hj')
  exact absurd hused (by simp [Job.unlinked, hunused])

theorem step_eq (s : Sys) (op : Op) :
    (s.step op).2 = s ∨ s.step? op = some (s.step op).2 := by
  rw [Sys.step]
  cases s.step? op with
  | none => exact .inl rfl
  | some s' => exact .inr rfl

theorem Sys.Tidy.step (h : s.Tidy l) (op : Op) : ∃ l', (s.step op).2.Tidy l' := by
  rcases step_eq s op with heq | heq
  · exact ⟨l, by rwa [heq]⟩
  · obtain ⟨l', -, htidy⟩ := step_effect h heq
    exact ⟨l', htidy⟩

/-- In every run the list holds exactly the entries that are in use. -/
theorem run_tidy (h : s.Fresh) (ops : List Op) :
    ∃ l, (Run.run Sys.step s ops).2.Tidy l :=
  Run.run_preserves (P := fun s : Sys => ∃ l, s.Tidy l) (fun _ op ⟨_, hs⟩ => hs.step op) ops
    ⟨[], h.tidy⟩

theorem run_stoppedFirst (h : s.Fresh) {ops : List Op}
    (hops : Run.Along Sys.step Sys.OrderOk s ops) :
    ∃ l, (Run.run Sys.step s ops).2.Tidy l ∧ (Run.run Sys.step s ops).2.StoppedFirst l := by
  refine Run.run_invariant (P := fun s : Sys => ∃ l, s.Tidy l ∧ s.StoppedFirst l) ?_
    ⟨[], h.tidy, List.Pairwise.nil⟩ hops
  rintro s op ⟨l, htidy, hfirst⟩ hok
  rcases step_eq s op with heq | heq
  · rw [heq]
    exact ⟨l, htidy, hfirst⟩
  · obtain ⟨l', heff, htidy'⟩ := step_effect htidy heq
    exact ⟨l', htidy', heff.stoppedFirst hfirst htidy.listed hok⟩

/-- The head of a list in order is stopped if any job is. -/
theorem stoppedjobs_iff {t : Jobs} (hl : t.Listed l)
    (h : l.Pairwise fun i k => t.stopped k → t.stopped i) :
    (t.stoppedjobs).1 = true ↔ t.job_warning = 0 ∧ ∃ i ∈ l, t.stopped i := by
  have hhead : t.curjob.any t.isStopped = true ↔ ∃ i ∈ l, t.stopped i := by
    have hcur : t.curjob = (l.map (t.jobtab + ·)).head? := Links.Path.head?_eq hl.holds
    cases l with
    | nil => simp [hcur]
    | cons a l =>
      have ha : t.isStopped (t.jobtab + a) = t.stopped a := congrFun (isStopped_add t) a
      rw [hcur, List.map_cons, List.head?_cons, Option.any_some, ha]
      refine ⟨fun ha => ⟨a, by simp, ha⟩, ?_⟩
      rintro ⟨i, hi, hstop⟩
      rcases List.mem_cons.1 hi with rfl | hi
      · exact hstop
      · exact (List.pairwise_cons.1 h).1 i hi hstop
  rw [Jobs.stoppedjobs, ← hhead]
  by_cases hwarn : t.job_warning = 0
  · rw [if_neg (by simpa using hwarn)]
    split <;> simp_all
  · rw [if_pos hwarn]
    simp [hwarn]

/-- A shell with job control and no jobs. -/
def initSys : Sys where
  jobs :=
    { jobtab := 0, tab := [], curjob := none, backgndpid := 0, jobctl := true,
      pipefail := false, job_warning := 0 }
  kids := []
  gotsigchld := false
  fg := none

theorem initSys_fresh : initSys.Fresh := ⟨rfl, by simp [initSys], rfl⟩

def stopReport (pid : Int) : Answer := { pid := pid, status := 20 * 256 + 127, sigchld := false }

/-- A command in the foreground that is stopped from the terminal. -/
def stoppedCommand (pid : Int) (base : ℕ) : List Op :=
  [.makejob 1 .fg base, .fork pid [], .waitone .block (stopReport pid), .waitforjob]

theorem Active.state_of_tab {t : Jobs} {state : JobState} (hj : Active t i j)
    (h : ∀ j ∈ t.tab, j.used → j.state ≠ state) : j.state ≠ state := by
  obtain ⟨hjob, hused, -⟩ := hj
  rw [job?, Option.map_eq_some_iff] at hjob
  obtain ⟨j', hj', rfl⟩ := hjob
  exact h j' (List.mem_of_getElem? hj') hused

theorem stoppedCommand_orderOk :
    Run.Along Sys.step Sys.OrderOk initSys (stoppedCommand 101 10) := by
  refine ⟨trivial, trivial, fun i j hj _ hstate => ?_, fun i j _ hj hstate => ?_, trivial⟩
  · exact absurd hstate (hj.state_of_tab (by decide +kernel))
  · exact absurd hstate (hj.state_of_tab (by decide +kernel))

/-- Of two stopped jobs the current one is killed. Its entry stays at the head, and `exit` does
not warn of the other. -/
def killedCurrent : List Op :=
  stoppedCommand 101 10 ++ stoppedCommand 102 10 ++
    [.waitone .nonblock { pid := 102, status := 9, sigchld := false }]

end Bootsh.Jobs
