import Bootsh.Jobs.Order

/-!
The recorded state of a job is the one that the statuses of its processes give it, and
`waitforjob` comes back when the job no longer runs.
-/
namespace Bootsh.Jobs

variable {s s' : Sys} {l l' : List ℕ} {i k : ℕ} {op : Op} {t t' : Jobs} {j j' : Job}
  {kids kids' : List Int}

/-- The process has not ended, as far as the shell knows. -/
def Live (p : Procstat) : Prop := p.status = -1 ∨ WIFSTOPPED p.status

def pids (j : Job) : List Int := j.ps.map (·.pid)

/-- The table agrees with the children: a process that has not ended is one of them, and no two
processes of jobs that are not done have the same number. -/
structure Agree (t : Jobs) (kids : List Int) : Prop where
  state : ∀ i j, t.job? i = some j → j.used → j.state = stateOf j.ps
  live : ∀ i j, t.job? i = some j → j.used → ∀ p ∈ j.ps, Live p → p.pid ∈ kids
  nodup : ∀ i j, Active t i j → (pids j).Nodup
  apart : ∀ i j k j', Active t i j → Active t k j' → i ≠ k → ∀ pid ∈ pids j,
    pid ∉ pids j'

/-- No process of the job that is being made has been reported. -/
def Sys.Building (s : Sys) : Prop :=
  ∀ f ∈ s.fg, f.left ≠ 0 → ∀ i j, f.jp = s.jobs.jobtab + i → s.jobs.job? i = some j →
    ∀ p ∈ j.ps, p.status = -1

/-- What keeps the states right: `fork` gives a number that no job that is not done has a process
with, `nprocs` does not overflow, and a stopped job gets the terminal. -/
def Sys.StateOk (s : Sys) : Op → Prop
  | .fork pid _ => (∀ i j, Active s.jobs i j → pid ∉ pids j) ∧
      ∀ f ∈ s.fg, ∀ i j, f.jp = s.jobs.jobtab + i → s.jobs.job? i = some j →
        j.ps.length + 1 < 2 ^ 16
  | .fg jp tty => tty ∨ ∀ i, jp = s.jobs.jobtab + i → ¬ s.jobs.stopped i
  | _ => True

/-! ### States -/

theorem stateOf_running_iff {ps : List Procstat} :
    stateOf ps = .running ↔ ps = [] ∨ ∃ p ∈ ps, p.status = -1 := by
  rw [stateOf]
  split
  case isTrue h => simp [h]
  case isFalse h =>
    split <;> simp [h]

theorem stateOf_done_iff {ps : List Procstat} :
    stateOf ps = .done ↔ ps ≠ [] ∧ ∀ p ∈ ps, ¬ Live p := by
  rw [stateOf]
  split
  case isTrue h =>
    rcases h with rfl | ⟨p, hp, hstatus⟩
    · simp
    · simp only [reduceCtorEq, false_iff, not_and, not_forall, not_not]
      exact fun _ => ⟨p, hp, .inl hstatus⟩
  case isFalse h =>
    rw [not_or] at h
    split
    case isTrue hstop =>
      obtain ⟨p, hp, hstatus⟩ := hstop
      simp only [reduceCtorEq, false_iff, not_and, not_forall, not_not]
      exact fun _ => ⟨p, hp, .inr hstatus⟩
    case isFalse hstop =>
      simp only [true_iff]
      refine ⟨h.1, fun p hp hlive => ?_⟩
      rcases hlive with hlive | hlive
      · exact h.2 ⟨p, hp, hlive⟩
      · exact hstop ⟨p, hp, hlive⟩

theorem Agree.active_of_live (h : Agree t kids) (hj : t.job? i = some j) (hused : j.used)
    {p : Procstat} (hp : p ∈ j.ps) (hlive : Live p) : Active t i j := by
  refine ⟨hj, hused, fun hdone => ?_⟩
  rw [h.state i j hj hused, stateOf_done_iff] at hdone
  exact hdone.2 p hp hlive

theorem pids_setStatus (pid status : Int) (ps : List Procstat) :
    (setStatus pid status ps).map (·.pid) = ps.map (·.pid) := by
  rw [setStatus, List.map_map]
  refine List.map_congr_left fun p _ => ?_
  simp only [Function.comp_apply]
  split <;> rfl

/-! ### Changes of one job -/

/-- One job is changed, and the others keep their children. -/
theorem Agree.only (h : Agree t kids) (honly : Only t t' i j')
    (hstate : j'.used → j'.state = stateOf j'.ps)
    (hlive : j'.used → ∀ p ∈ j'.ps, Live p → p.pid ∈ kids')
    (hother : ∀ k j, k ≠ i → t.job? k = some j → j.used → ∀ p ∈ j.ps, Live p →
      p.pid ∈ kids')
    (hnodup : j'.used → j'.state ≠ .done → (pids j').Nodup)
    (hapart : j'.used → j'.state ≠ .done → ∀ k j, k ≠ i → Active t k j →
      ∀ pid ∈ pids j', pid ∉ pids j) : Agree t' kids' := by
  have hself : ∀ {j₁}, t'.job? i = some j₁ → j' = j₁ := fun hj₁ => by
    rw [honly.job, Function.update_self] at hj₁
    exact Option.some.inj hj₁
  have hne : ∀ {k}, k ≠ i → t'.job? k = t.job? k := fun hk => by
    rw [honly.job, Function.update_of_ne hk]
  have hact : ∀ {k j}, k ≠ i → Active t' k j → Active t k j := fun hk ⟨hj, hused, hdone⟩ =>
    ⟨by rwa [hne hk] at hj, hused, hdone⟩
  refine ⟨fun k j₁ hj₁ hused => ?_, fun k j₁ hj₁ hused => ?_, fun k j₁ hj₁ => ?_,
    fun k j₁ m j₂ hj₁ hj₂ hkm pid hpid hpid' => ?_⟩
  · by_cases hk : k = i
    · subst hk
      obtain rfl := hself hj₁
      exact hstate hused
    · rw [hne hk] at hj₁
      exact h.state k j₁ hj₁ hused
  · by_cases hk : k = i
    · subst hk
      obtain rfl := hself hj₁
      exact hlive hused
    · rw [hne hk] at hj₁
      exact hother k j₁ hk hj₁ hused
  · by_cases hk : k = i
    · subst hk
      obtain rfl := hself hj₁.job
      exact hnodup hj₁.used hj₁.state
    · exact h.nodup k j₁ (hact hk hj₁)
  · by_cases hk : k = i
    · subst hk
      obtain rfl := hself hj₁.job
      exact hapart hj₁.used hj₁.state m j₂ (Ne.symm hkm) (hact (Ne.symm hkm) hj₂) pid hpid hpid'
    · by_cases hm : m = i
      · subst hm
        obtain rfl := hself hj₂.job
        exact hapart hj₂.used hj₂.state k j₁ hk (hact hk hj₁) pid hpid' hpid
      · exact h.apart k j₁ m j₂ (hact hk hj₁) (hact hm hj₂) hkm pid hpid hpid'

/-- The processes of the job stay, with other statuses. -/
theorem Agree.status (h : Agree t kids) (hj : t.job? i = some j) (honly : Only t t' i j')
    (hused : j'.used → j.used) (hdone : j'.used → j'.state ≠ .done → j.state ≠ .done)
    (hpids : pids j' = pids j) (hstate : j'.used → j'.state = stateOf j'.ps)
    (hlive : j'.used → ∀ p ∈ j'.ps, Live p → p.pid ∈ kids')
    (hother : ∀ k j, k ≠ i → t.job? k = some j → j.used → ∀ p ∈ j.ps, Live p →
      p.pid ∈ kids') : Agree t' kids' := by
  refine h.only honly hstate hlive hother (fun hu hd => ?_) fun hu hd k j₁ hk hj₁ => ?_
  · rw [hpids]
    exact h.nodup i j ⟨hj, hused hu, hdone hu hd⟩
  · rw [hpids]
    exact h.apart i j k j₁ ⟨hj, hused hu, hdone hu hd⟩ hj₁ (Ne.symm hk)

theorem Agree.keep (h : Agree t kids) (hj : t.job? i = some j) (honly : Only t t' i j')
    (hused : j'.used → j.used) (hstate : j'.state = j.state) (hps : j'.ps = j.ps) :
    Agree t' kids := by
  refine h.status hj honly hused (fun _ hd => hstate ▸ hd) (by rw [pids, hps]; rfl)
    (fun hu => ?_) (fun hu => ?_) fun k j₁ _ => h.live k j₁
  · rw [hstate, hps]
    exact h.state i j hj (hused hu)
  · rw [hps]
    exact h.live i j hj (hused hu)

theorem pids_resumed : pids (resumed j) = pids j := by
  rw [pids, resumed, pids, List.map_map]
  refine List.map_congr_left fun p _ => ?_
  simp only [Function.comp_apply]
  split <;> rfl

theorem Agree.resumed (h : Agree t kids) (hj : t.job? i = some j) (hdone : j.state ≠ .done)
    (honly : Only t t' i (resumed j)) : Agree t' kids := by
  refine h.status hj honly id (fun _ _ => hdone) pids_resumed (fun hused => ?_)
    (fun hused p hp hlive => ?_) fun k j₁ _ => h.live k j₁
  · -- One of the processes has not ended, and now it runs.
    rw [h.state i j hj hused, ne_eq, stateOf_done_iff, not_and_or, not_not] at hdone
    refine (stateOf_running_iff.2 ?_).symm
    rcases hdone with hnil | hlive
    · exact .inl (by rw [Jobs.resumed, hnil]; rfl)
    · push Not at hlive
      obtain ⟨p, hp, hlive⟩ := hlive
      refine .inr ⟨_, List.mem_map_of_mem hp, ?_⟩
      rcases hlive with hrun | hstop
      · have hnot : ¬ WIFSTOPPED p.status = true := by
          rw [hrun]
          decide
        rw [if_neg hnot, hrun]
      · rw [if_pos hstop]
  · obtain ⟨q, hq, rfl⟩ := List.mem_map.1 hp
    by_cases hstop : WIFSTOPPED q.status = true
    · rw [if_pos hstop]
      exact h.live i j hj hused q hq (.inr hstop)
    · rw [if_neg hstop] at hlive ⊢
      exact h.live i j hj hused q hq hlive

theorem Agree.freed (h : Agree t kids) (honly : Only t t' i j')
    (hused : j'.used = false) : Agree t' kids := by
  refine h.only honly ?_ ?_ (fun k j₁ _ => h.live k j₁) ?_ ?_ <;>
    exact fun hu => absurd hu (by simp [hused])

theorem Agree.others (h : Agree t kids) (hsub : ∀ i j, t.job? i = some j → j.used → ∀ p ∈ j.ps,
    Live p → p.pid ∈ kids → p.pid ∈ kids') : Agree t kids' :=
  ⟨h.state, fun i j hj hused p hp hlive =>
    hsub i j hj hused p hp hlive (h.live i j hj hused p hp hlive), h.nodup, h.apart⟩

theorem Agree.made (h : Agree t kids) (hmade : Made t t' i) : Agree t' kids := by
  have hcase : ∀ {k j₁}, t'.job? k = some j₁ → j₁.used →
      k = i ∧ j₁ = t.fresh ∨ k ≠ i ∧ t.job? k = some j₁ := by
    intro k j₁ hj₁ hused
    by_cases hk : k = i
    · subst hk
      rw [hmade.job] at hj₁
      exact .inl ⟨rfl, (Option.some.inj hj₁).symm⟩
    · rcases hmade.other k hk with heq | ⟨-, hzero⟩
      · exact .inr ⟨hk, by rwa [heq] at hj₁⟩
      · rw [hzero] at hj₁
        obtain rfl := Option.some.inj hj₁
        cases hused
  refine ⟨fun k j₁ hj₁ hused => ?_, fun k j₁ hj₁ hused => ?_, fun k j₁ hj₁ => ?_,
    fun k j₁ m j₂ hj₁ hj₂ hkm pid hpid hpid' => ?_⟩
  · rcases hcase hj₁ hused with ⟨-, rfl⟩ | ⟨-, hj⟩
    · exact (stateOf_running_iff.2 (.inl rfl)).symm
    · exact h.state k j₁ hj hused
  · rcases hcase hj₁ hused with ⟨-, rfl⟩ | ⟨-, hj⟩
    · exact fun p hp => absurd hp List.not_mem_nil
    · exact h.live k j₁ hj hused
  · rcases hcase hj₁.job hj₁.used with ⟨-, rfl⟩ | ⟨-, hj⟩
    · exact List.nodup_nil
    · exact h.nodup k j₁ ⟨hj, hj₁.used, hj₁.state⟩
  · rcases hcase hj₁.job hj₁.used with ⟨-, rfl⟩ | ⟨-, hj⟩
    · exact absurd hpid List.not_mem_nil
    · rcases hcase hj₂.job hj₂.used with ⟨-, rfl⟩ | ⟨-, hj'⟩
      · exact absurd hpid' List.not_mem_nil
      · exact h.apart k j₁ m j₂ ⟨hj, hj₁.used, hj₁.state⟩ ⟨hj', hj₂.used, hj₂.state⟩ hkm pid
          hpid hpid'

theorem Agree.forked {p : Procstat} (h : Agree t kids) (hj : t.job? i = some j) (hused : j.used)
    (hbuild : ∀ q ∈ j.ps, q.status = -1) (hp : p.status = -1)
    (hnew : ∀ k j, Active t k j → p.pid ∉ pids j) (hlen : j.ps.length + 1 < 2 ^ 16)
    (honly : Only t t' i { j with ps := addProc j.ps p }) : Agree t' (p.pid :: kids) := by
  have hadd : addProc j.ps p = j.ps ++ [p] := if_pos hlen
  rw [hadd] at honly
  have hrun : j.state = .running := by
    rw [h.state i j hj hused, stateOf_running_iff]
    cases hps : j.ps with
    | nil => exact .inl rfl
    | cons q ps => exact .inr ⟨q, by simp, hbuild q (by simp [hps])⟩
  have hact : Active t i j := ⟨hj, hused, by simp [hrun]⟩
  have hpids : pids { j with ps := j.ps ++ [p] } = pids j ++ [p.pid] := by
    rw [pids, List.map_append]
    rfl
  refine h.only honly (fun _ => ?_) (fun _ q hq hlive => ?_) (fun k j₁ _ hj₁ hu q hq hlive => ?_)
    (fun _ _ => ?_) fun _ _ k j₁ hk hj₁ pid hpid => ?_
  · exact hrun.trans (stateOf_running_iff.2 (.inr ⟨p, by simp, hp⟩)).symm
  · rcases List.mem_append.1 hq with hq | hq
    · exact List.mem_cons_of_mem _ (h.live i j hj hused q hq hlive)
    · simp [List.mem_singleton.1 hq]
  · exact List.mem_cons_of_mem _ (h.live k j₁ hj₁ hu q hq hlive)
  · rw [hpids, List.nodup_append']
    refine ⟨h.nodup i j hact, List.nodup_singleton _, fun pid hpid hpid' => ?_⟩
    rw [List.mem_singleton.1 hpid'] at hpid
    exact hnew i j hact hpid
  · rw [hpids, List.mem_append, List.mem_singleton] at hpid
    rcases hpid with hpid | rfl
    · exact h.apart i j k j₁ hact hj₁ (Ne.symm hk) pid hpid
    · exact hnew k j₁ hj₁

/-! ### Reports -/

theorem mem_setStatus {pid status : Int} {ps : List Procstat} {p : Procstat}
    (hp : p ∈ setStatus pid status ps) :
    p ∈ ps ∧ p.pid ≠ pid ∨ ∃ q ∈ ps, q.pid = pid ∧ p = { q with status := status } := by
  obtain ⟨q, hq, rfl⟩ := List.mem_map.1 hp
  by_cases hpid : q.pid = pid
  · rw [if_pos hpid]
    exact .inr ⟨q, hq, hpid, rfl⟩
  · rw [if_neg hpid]
    exact .inl ⟨hq, hpid⟩

/-- A report never makes a job run. -/
theorem stateOf_setStatus {pid status : Int} {ps : List Procstat} (hstatus : 0 ≤ status)
    (hrun : stateOf (setStatus pid status ps) = .running) : stateOf ps = .running := by
  rw [stateOf_running_iff] at hrun ⊢
  rcases hrun with hnil | ⟨p, hp, hp'⟩
  · exact .inl (List.map_eq_nil_iff.1 hnil)
  · rcases mem_setStatus hp with ⟨hin, -⟩ | ⟨q, -, -, rfl⟩
    · exact .inr ⟨p, hin, hp'⟩
    · change status = -1 at hp'
      omega

theorem pids_received (j : Job) (a : Answer) : pids (received j a) = pids j := by
  rw [received]
  split <;> exact pids_setStatus _ _ _

theorem ps_received (j : Job) (a : Answer) :
    (received j a).ps = setStatus a.pid a.status j.ps := by
  rw [received]
  split <;> rfl

theorem used_received (j : Job) (a : Answer) : (received j a).used = j.used := by
  rw [received]
  split <;> rfl

theorem Agree.state_received {a : Answer} (h : Agree t kids) (hj : Active t i j)
    (hstatus : 0 ≤ a.status) : (received j a).state = stateOf (received j a).ps := by
  rw [ps_received, received]
  split
  case isTrue hrun =>
    exact (h.state i j hj.job hj.used).trans ((stateOf_setStatus hstatus hrun).trans hrun.symm)
  case isFalse => rfl

/-- The children that a report leaves. -/
theorem mem_reap {a : Answer} {pid : Int} (h : pid ∈ s.kids)
    (hne : pid ≠ a.pid ∨ WIFSTOPPED a.status ∨ ¬ 0 < a.pid) : pid ∈ s.reap a := by
  rw [Sys.reap]
  split
  case isTrue hcond =>
    rcases hne with hne | hstop | hneg
    · exact List.mem_filter.2 ⟨h, by simpa using hne⟩
    · exact absurd hstop hcond.2
    · exact absurd hcond.1 hneg
  case isFalse => exact h

theorem Agree.nothing {a : Answer} (h : Agree s.jobs s.kids)
    (hmiss : 0 < a.pid → ∀ i j, Active s.jobs i j → a.pid ∉ pids j) :
    Agree s.jobs (s.reap a) := by
  refine h.others fun i j hj hused p hp hlive hkid => mem_reap hkid ?_
  by_cases hpos : 0 < a.pid
  · refine .inl fun hpid => hmiss hpos i j (h.active_of_live hj hused hp hlive) ?_
    rw [← hpid]
    exact List.mem_map_of_mem hp
  · exact .inr (.inr hpos)

theorem Agree.reported {flag : Block} {a : Answer} (h : Agree s.jobs s.kids)
    (hans : s.Answers flag a) (hpid : 0 < a.pid) (hj : Active s.jobs i j)
    (hhit : a.pid ∈ pids j) (honly : Only s.jobs t' i (received j a)) :
    Agree t' (s.reap a) := by
  rw [Sys.Answers, if_pos hpid] at hans
  obtain ⟨hkid, hstatus, -⟩ := hans
  refine h.status hj.job honly (fun hu => by rwa [used_received] at hu) (fun _ _ => hj.state)
    (pids_received j a) (fun _ => h.state_received hj hstatus) (fun _ p hp hlive => ?_)
    fun k j₁ hk hj₁ hused p hp hlive => ?_
  · rw [ps_received] at hp
    rcases mem_setStatus hp with ⟨hin, hne⟩ | ⟨q, hq, hqpid, rfl⟩
    · exact mem_reap (h.live i j hj.job hj.used p hin hlive) (.inl hne)
    · refine mem_reap (by rwa [← hqpid] at hkid) (.inr (.inl ?_))
      rcases hlive with hrun | hstop
      · change a.status = -1 at hrun
        omega
      · exact hstop
  · refine mem_reap (h.live k j₁ hj₁ hused p hp hlive) (.inl fun heq => ?_)
    refine h.apart i j k j₁ hj (h.active_of_live hj₁ hused hp hlive) (Ne.symm hk) a.pid hhit ?_
    rw [← heq]
    exact List.mem_map_of_mem hp

/-! ### Steps -/

theorem Effect.agree (h : Agree s.jobs s.kids) (hl : s.jobs.Listed l) (hbuild : s.Building)
    (hok : s.StateOk op) (heff : Effect s l op s' l') : Agree s'.jobs s'.kids := by
  cases heff with
  | makejob _ _ hmade => exact h.made hmade
  | @fork f i j t' pid cmd p hfg hleft hjp hi hj hpid _ hp hstatus honly =>
    subst hp
    obtain ⟨j₁, hj₁, hused⟩ := hl.job hi
    obtain rfl : j = j₁ := Option.some.inj (hj.symm.trans hj₁)
    exact h.forked hj hused (hbuild f hfg hleft i j hjp hj) hstatus hok.1
      (hok.2 f hfg i j hjp hj) honly
  | forkFailed _ _ _ _ _ honly => exact h.freed honly rfl
  | forkNoJob => exact h.others fun _ _ _ _ _ _ _ hkid => List.mem_cons_of_mem _ hkid
  | pipeFailed => exact h
  | background => exact h
  | nothing _ _ hmiss => exact h.nothing hmiss
  | reported _ hans hpid hj _ hhit honly => exact h.reported hans hpid hj hhit honly
  | finished _ _ _ _ _ honly => exact h.freed honly rfl
  | left => exact h
  | fgDone => exact h
  | fg _ _ _ hj hdone honly => exact h.resumed hj hdone honly
  | @fgFailed i j jp t' _ hjp _ hj hdone honly =>
    have hstop : j.state ≠ .stopped := fun hstate => by
      refine (hok.resolve_left (by simp)) i hjp ?_
      rw [stopped, hj]
      simp [hstate]
    refine h.keep hj honly id ?_ rfl
    cases hstate : j.state with
    | running => rfl
    | stopped => exact absurd hstate hstop
    | done => exact absurd hstate hdone
  | @bg i j jp t' _ _ hj honly =>
    by_cases hdone : j.state = .done
    · rw [if_pos hdone] at honly
      exact h.keep hj honly id rfl rfl
    · rw [if_neg hdone] at honly
      exact h.resumed hj hdone honly
  | shown _ _ _ _ honly => exact h.freed honly rfl
  | noted _ _ _ hj hps hstate hused honly =>
    exact h.keep hj honly (fun hu => hused ▸ hu) hstate hps
  | @settings op t' b hjob _ _ =>
    refine ⟨?_, ?_, ?_, ?_⟩
    · exact fun i j hj => h.state i j (by rwa [← hjob])
    · exact fun i j hj => h.live i j (by rwa [← hjob])
    · exact fun i j hj => h.nodup i j ⟨by rw [← hjob]; exact hj.job, hj.used, hj.state⟩
    · exact fun i j k j' hj hj' => h.apart i j k j'
        ⟨by rw [← hjob]; exact hj.job, hj.used, hj.state⟩
        ⟨by rw [← hjob]; exact hj'.job, hj'.used, hj'.state⟩
  | forkchild hfree =>
    refine ⟨fun i j hj hused => ?_, fun i j hj hused => ?_, fun i j hj => ?_,
      fun i j k j' hj => ?_⟩
    · exact absurd hused (by simp [hfree i j hj])
    · exact absurd hused (by simp [hfree i j hj])
    · exact absurd hj.used (by simp [hfree i j hj.job])
    · exact absurd hj.used (by simp [hfree i j hj.job])

theorem Effect.building (h : s.Building) (hok : s.StateOk op) (heff : Effect s l op s' l') :
    s'.Building := by
  cases heff with
  | @makejob i t' nprocs mode base _ _ hmade =>
    rintro f hf - i' j hjp hj p hp
    obtain rfl := Option.some.inj hf
    obtain rfl : i = i' := Nat.add_left_cancel hjp
    rw [hmade.job] at hj
    obtain rfl := Option.some.inj hj
    exact absurd hp List.not_mem_nil
  | @fork f i j t' pid cmd p hfg hleft hjp hi hj hpid _ hp hstatus honly =>
    rintro f' hf - i' j' hjp' hj' q hq
    obtain rfl := Option.some.inj hf
    obtain rfl : i = i' := by
      change f.jp = t'.jobtab + i' at hjp'
      rw [honly.jobtab] at hjp'
      omega
    change t'.job? i = some j' at hj'
    rw [honly.job, Function.update_self] at hj'
    obtain rfl := Option.some.inj hj'
    have hadd : addProc j.ps p = j.ps ++ [p] := if_pos (hok.2 f hfg i j hjp hj)
    change q ∈ addProc j.ps p at hq
    rw [hadd, List.mem_append, List.mem_singleton] at hq
    rcases hq with hq | rfl
    · exact h f hfg hleft i j hjp hj q hq
    · exact hstatus
  | forkFailed => exact fun f hf => absurd hf (by simp)
  | forkNoJob => exact h
  | pipeFailed => exact fun f hf => absurd hf (by simp)
  | background => exact fun f hf => absurd hf (by simp)
  | nothing => exact h
  | reported hwaits => exact fun f hf hleft => absurd (hwaits f hf).1 hleft
  | finished => exact fun f hf => absurd hf (by simp)
  | left => exact fun f hf => absurd hf (by simp)
  | fgDone =>
    rintro f hf hleft
    obtain rfl := Option.some.inj hf
    exact absurd rfl hleft
  | fg =>
    rintro f hf hleft
    obtain rfl := Option.some.inj hf
    exact absurd rfl hleft
  | fgFailed => exact fun f hf => absurd hf (by simp)
  | bg hidle => exact fun f hf => absurd hf (by simp [hidle])
  | shown hidle => exact fun f hf => absurd hf (by simp [hidle])
  | noted _ hidle => exact fun f hf => absurd hf (by simp [hidle])
  | @settings op t' b hjob htab _ =>
    intro f hf hleft i j hjp hj
    exact h f hf hleft i j (hjp.trans (congrArg (· + i) htab)) (by rwa [← hjob])
  | forkchild => exact fun f hf => absurd hf (by simp)

/-- What holds of the system in a run whose steps are `StateOk`. -/
structure Sys.Consistent (s : Sys) : Prop where
  tidy : ∃ l, s.Tidy l
  agree : Agree s.jobs s.kids
  building : s.Building

theorem Sys.Fresh.consistent (h : s.Fresh) : s.Consistent := by
  have hunused : ∀ {i j}, s.jobs.job? i = some j → j.used = true → False := fun hj hused =>
    absurd ((h.tidy.listed.used _).2 ⟨_, hj, hused⟩) List.not_mem_nil
  refine ⟨⟨[], h.tidy⟩, ⟨fun i j hj hu => (hunused hj hu).elim,
    fun i j hj hu => (hunused hj hu).elim, fun i j hj => (hunused hj.job hj.used).elim,
    fun i j k j' hj => (hunused hj.job hj.used).elim⟩, fun f hf => ?_⟩
  rw [h.fg] at hf
  cases hf

theorem Sys.Consistent.step (h : s.Consistent) (hok : s.StateOk op) :
    (s.step op).2.Consistent := by
  rcases step_eq s op with heq | heq
  · rwa [heq]
  · obtain ⟨l, htidy⟩ := h.tidy
    obtain ⟨l', heff, htidy'⟩ := step_effect htidy heq
    exact ⟨⟨l', htidy'⟩, heff.agree h.agree htidy.listed h.building hok,
      heff.building h.building hok⟩

theorem run_consistent (h : s.Fresh) {ops : List Op}
    (hops : Run.Along Sys.step Sys.StateOk s ops) : (Run.run Sys.step s ops).2.Consistent :=
  Run.run_invariant (fun _ _ hs hok => hs.step hok) h.consistent hops

/-! ### Waiting -/

theorem running_iff (hj : s.jobs.job? i = some j) :
    s.Running (some (s.jobs.jobtab + i)) ↔ j.state = .running := by
  obtain ⟨j', hj', rfl⟩ := entry_of_job? hj
  simp [Sys.Running, hj', Job.unlinked]

/-- A wait leaves the job in use, with its processes, and does not make it run. -/
structure Waited (s s' : Sys) (i : ℕ) (j : Job) : Prop where
  consistent : s'.Consistent
  waits : s'.Waits
  jobtab : s'.jobs.jobtab = s.jobs.jobtab
  pipefail : s'.jobs.pipefail = s.jobs.pipefail
  job : ∃ j', s'.jobs.job? i = some j' ∧ j'.used ∧ pids j' = pids j ∧
    (j.state ≠ .running → j'.state ≠ .running)

theorem Waited.trans {s'' : Sys} (h : Waited s s' i j) (hj' : s'.jobs.job? i = some j')
    (h' : Waited s' s'' i j') : Waited s s'' i j := by
  obtain ⟨j₁, hj₁, -, hpids, hstate⟩ := h.job
  obtain rfl : j' = j₁ := Option.some.inj (hj'.symm.trans hj₁)
  obtain ⟨j₂, hj₂, hused₂, hpids₂, hstate₂⟩ := h'.job
  exact ⟨h'.consistent, h'.waits, h'.jobtab.trans h.jobtab, h'.pipefail.trans h.pipefail,
    j₂, hj₂, hused₂, hpids₂.trans hpids, fun hs => hstate₂ (hstate hs)⟩

theorem waitone_waited {flag : Block} {a : Answer} (h : s.Consistent) (hwaits : s.Waits)
    (hj : s.jobs.job? i = some j) (hused : j.used) (hstep : s.waitone flag a = some s') :
    s.Answers flag a ∧ Waited s s' i j := by
  obtain ⟨l, htidy⟩ := h.tidy
  have hop : s.step? (.waitone flag a) = some s' := (if_pos hwaits).trans hstep
  have hcons : s'.Consistent := by
    have hnext := @Sys.Consistent.step s (.waitone flag a) h trivial
    rwa [Sys.step, hop] at hnext
  obtain ⟨l', heff, -⟩ := step_effect htidy hop
  cases heff with
  | nothing _ hans _ => exact ⟨hans, hcons, hwaits, rfl, rfl, j, hj, hused, rfl, id⟩
  | @reported flag a k jk t' _ hans hpid hact hk _ honly =>
    refine ⟨hans, hcons, hwaits, honly.jobtab, honly.pipefail, ?_⟩
    change ∃ j', t'.job? i = some j' ∧ _
    rw [honly.job]
    by_cases hik : i = k
    · subst hik
      obtain rfl : j = jk := Option.some.inj (hj.symm.trans hact.job)
      rw [Function.update_self]
      refine ⟨_, rfl, by rwa [used_received], pids_received j a, fun hnot hrun => hnot ?_⟩
      rw [Sys.Answers, if_pos hpid] at hans
      rw [h.agree.state_received hact hans.2.1, ps_received] at hrun
      rw [h.agree.state i j hj hused]
      exact stateOf_setStatus hans.2.1 hrun
    · rw [Function.update_of_ne hik]
      exact ⟨j, hj, hused, rfl, id⟩
  | settings _ _ hsettings => exact hsettings.elim
  | noted hnoted =>
    obtain ⟨jp, heq | heq⟩ := hnoted
    · cases heq
    · cases heq

theorem dowaitLoop_waited {r r' : Bool} {flag : Block} {as as' : List Answer}
    (h : s.Consistent) (hwaits : s.Waits) (hj : s.jobs.job? i = some j) (hused : j.used)
    (hps : pids j ≠ []) (hflag : flag = if j.state = .running then .block else .nonblock)
    (hres : s.dowaitLoop (some (s.jobs.jobtab + i)) flag r as = some (r', as', s')) :
    Waited s s' i j ∧ ∀ j', s'.jobs.job? i = some j' → j'.state ≠ .running := by
  induction as generalizing s flag r j with
  | nil => cases hres
  | cons a as ih =>
    rw [Sys.dowaitLoop, Option.bind_eq_some_iff] at hres
    obtain ⟨s₁, hone, hres⟩ := hres
    obtain ⟨hans, hw⟩ := waitone_waited h hwaits hj hused hone
    obtain ⟨j₁, hj₁, hused₁, hpids₁, hstate₁⟩ := hw.job
    have hrun₁ : s₁.Running (some (s.jobs.jobtab + i)) ↔ j₁.state = .running := by
      rw [← hw.jobtab]
      exact running_iff hj₁
    have hplain : flag = .block ∨ flag = .nonblock := by
      rw [hflag]
      split <;> simp
    by_cases hend : 0 ≤ a.pid
    · rw [if_pos hend] at hres
      have hpos : a.pid ≠ 0 := fun hzero => by
        rw [Sys.Answers, if_neg (by omega), if_pos hzero] at hans
        rcases hplain with rfl | rfl <;> simp at hans
      have hnext : (if a.pid = 0 ∨ ¬ s₁.Running (some (s.jobs.jobtab + i)) then Block.nonblock
          else if flag = .waitcmdAll then .nonblock else flag) =
            if j₁.state = .running then .block else .nonblock := by
        by_cases hr : j₁.state = .running
        · have hr₀ : j.state = .running := by
            by_contra hnot
            exact hstate₁ hnot hr
          rw [if_neg (by simp [hpos, hrun₁, hr]), if_pos hr, hflag, if_pos hr₀]
          rfl
        · rw [if_pos (.inr (fun hc => hr (hrun₁.1 hc))), if_neg hr]
      rw [hnext, ← hw.jobtab] at hres
      obtain ⟨hw', hdone⟩ := ih hw.consistent hw.waits hj₁ hused₁ (by rwa [hpids₁]) rfl hres
      exact ⟨hw.trans hj₁ hw', hdone⟩
    · rw [if_neg hend] at hres
      obtain ⟨rfl, -, rfl⟩ : _ ∧ _ ∧ s₁ = s' := by simpa using hres
      refine ⟨hw, fun j' hj' hrun => ?_⟩
      obtain rfl : j₁ = j' := Option.some.inj (hj₁.symm.trans hj')
      have hr₀ : j.state = .running := by
        by_contra hnot
        exact hstate₁ hnot hrun
      -- A job that runs has a child, and with a child the call does not fail.
      rw [Sys.Answers, if_neg (by omega), if_neg (by omega), hflag, if_pos hr₀] at hans
      have hkids : s.kids = [] := hans.2.resolve_right (by simp)
      rw [h.agree.state i j hj hused, stateOf_running_iff] at hr₀
      rcases hr₀ with hnil | ⟨p, hp, hlive⟩
      · exact hps (by rw [pids, hnil]; rfl)
      · have hkid := h.agree.live i j hj hused p hp (.inl hlive)
        rw [hkids] at hkid
        cases hkid

/-- The status that decides. -/
def decisive (pipefail : Bool) (ps : List Procstat) : Int :=
  ((if pipefail then ps.reverse.find? (·.status ≠ 0) else ps.getLast?).map (·.status)).getD 0

theorem lastStatus_eq (pipefail : Bool) (ps : List Procstat) :
    lastStatus pipefail ps =
      ((if pipefail then ps.find? (·.status ≠ 0) else ps.head?).map (·.status)).getD 0 := by
  induction ps with
  | nil => cases pipefail <;> rfl
  | cons p ps ih =>
    cases ps with
    | nil =>
      cases pipefail with
      | false => rfl
      | true => by_cases hp : p.status = 0 <;> simp [lastStatus, hp]
    | cons q ps =>
      rw [lastStatus, ih]
      cases pipefail with
      | false => simp
      | true => by_cases hp : p.status = 0 <;> simp [hp]

theorem getstatus_eq (pipefail : Bool) (j : Job) :
    getstatus pipefail j = exitStatus (decisive pipefail j.ps) := by
  rw [getstatus, lastStatus_eq, decisive, List.head?_reverse]

theorem waitforjob_waited {as as' : List Answer} {st : Int} (h : s.Consistent)
    (hwaits : s.Waits) (hj : s.jobs.job? i = some j) (hused : j.used) (hps : pids j ≠ [])
    (hres : s.waitforjob (s.jobs.jobtab + i) as = some (st, as', s')) :
    ∃ j', s'.jobs.job? i = some j' ∧ pids j' = pids j ∧ j'.state ≠ .running ∧
      j'.state = stateOf j'.ps ∧ st = exitStatus (decisive s.jobs.pipefail j'.ps) := by
  rw [Sys.waitforjob, Option.bind_eq_bind, Option.bind_eq_some_iff] at hres
  obtain ⟨⟨r, as₁, s₁⟩, hwait, hres⟩ := hres
  obtain ⟨hw, hdone⟩ : Waited s s₁ i j ∧
      ∀ j', s₁.jobs.job? i = some j' → j'.state ≠ .running := by
    rw [Sys.dowait] at hwait
    by_cases hr : j.state = .running
    · rw [if_pos ((running_iff hj).2 hr)] at hwait
      exact dowaitLoop_waited h hwaits hj hused hps (if_pos hr).symm hwait
    · rw [if_neg (fun hc => hr ((running_iff hj).1 hc))] at hwait
      by_cases hsig : s.gotsigchld = true
      · rw [if_neg (by simp [hsig])] at hwait
        exact dowaitLoop_waited h hwaits hj hused hps (if_neg hr).symm hwait
      · rw [if_pos (by simp [hsig])] at hwait
        obtain ⟨-, -, rfl⟩ : _ ∧ _ ∧ s = s₁ := by simpa using hwait
        refine ⟨⟨h, hwaits, rfl, rfl, j, hj, hused, rfl, id⟩, fun j' hj' => ?_⟩
        obtain rfl : j = j' := Option.some.inj (hj.symm.trans hj')
        exact hr
  obtain ⟨j₁, hj₁, hused₁, hpids₁, -⟩ := hw.job
  have hstate₁ := hw.consistent.agree.state i j₁ hj₁ hused₁
  obtain ⟨l, htidy⟩ := hw.consistent.tidy
  have hi : i ∈ l := (htidy.listed.used i).2 ⟨j₁, hj₁, hused₁⟩
  obtain ⟨j₂, hentry, hj₂, -⟩ := htidy.listed.entry hi
  obtain rfl : j₁ = j₂.unlinked := Option.some.inj (hj₁.symm.trans hj₂)
  dsimp only at hres
  rw [Option.bind_eq_bind, waitedfor, ← hw.jobtab, hentry, Option.bind_some] at hres
  have hst : getstatus s₁.jobs.pipefail j₂ =
      exitStatus (decisive s.jobs.pipefail j₂.unlinked.ps) := by
    rw [getstatus_eq, hw.pipefail]
    rfl
  by_cases hfin : j₂.state = .done
  · obtain ⟨j₃, t', hj₃, -, hfree, honly, -⟩ := freejob_only htidy.listed hi
    obtain rfl : j₂.unlinked = j₃ := Option.some.inj (hj₁.symm.trans hj₃)
    rw [if_pos hfin, hfree, Option.map_some, Option.bind_some] at hres
    obtain ⟨rfl, -, rfl⟩ : getstatus s₁.jobs.pipefail j₂ = st ∧ _ ∧
        { s₁ with jobs := t' } = s' := by simpa using hres
    have hnot := hdone _ hj₁
    refine ⟨{ j₂.unlinked with used := false }, ?_, hpids₁, hnot, hstate₁, hst⟩
    change t'.job? i = _
    rw [honly.job, Function.update_self]
  · rw [if_neg hfin, Option.map_some, Option.bind_some] at hres
    obtain ⟨rfl, -, rfl⟩ : getstatus s₁.jobs.pipefail j₂ = st ∧ _ ∧ s₁ = s' := by
      simpa using hres
    exact ⟨j₂.unlinked, hj₁, hpids₁, hdone _ hj₁, hstate₁, hst⟩

/-! ### Waits as steps -/

theorem waitone_fg {flag : Block} {a : Answer} (hstep : s.waitone flag a = some s') :
    s'.fg = s.fg := by
  rw [Sys.waitone] at hstep
  by_cases hans : s.Answers flag a
  · rw [if_pos hans] at hstep
    by_cases hpid : a.pid ≤ 0
    · rw [if_pos hpid] at hstep
      obtain rfl := Option.some.inj hstep
      rfl
    · rw [if_neg hpid] at hstep
      obtain ⟨⟨t, found⟩, -, hstep⟩ := Option.bind_eq_some_iff.1 hstep
      cases found with
      | none =>
        obtain rfl := Option.some.inj hstep
        rfl
      | some p =>
        obtain ⟨t', -, rfl⟩ := Option.map_eq_some_iff.1 hstep
        rfl
  · rw [if_neg hans] at hstep
    cases hstep

theorem dowaitLoop_run {jp : Option ℕ} {r r' : Bool} {flag : Block} {as as' : List Answer}
    (hwaits : s.Waits) (hres : s.dowaitLoop jp flag r as = some (r', as', s')) :
    ∃ ops, (Run.run Sys.step s ops).2 = s' ∧ s'.fg = s.fg := by
  induction as generalizing s flag r with
  | nil => cases hres
  | cons a as ih =>
    rw [Sys.dowaitLoop, Option.bind_eq_some_iff] at hres
    obtain ⟨s₁, hone, hres⟩ := hres
    have hfg := waitone_fg hone
    have hstep : (s.step (.waitone flag a)).2 = s₁ := by
      rw [Sys.step, Sys.step?, if_pos hwaits, hone]
      rfl
    have hwaits₁ : s₁.Waits := by
      rw [Sys.Waits, hfg]
      exact hwaits
    by_cases hend : 0 ≤ a.pid
    · rw [if_pos hend] at hres
      obtain ⟨ops, hrun, hfg'⟩ := ih hwaits₁ hres
      refine ⟨.waitone flag a :: ops, ?_, hfg'.trans hfg⟩
      rw [Run.run, hstep]
      exact hrun
    · rw [if_neg hend] at hres
      obtain ⟨-, -, rfl⟩ : _ ∧ _ ∧ s₁ = s' := by simpa using hres
      refine ⟨[.waitone flag a], ?_, hfg⟩
      rw [Run.run, hstep]
      rfl

theorem dowait_run {jp : Option ℕ} {r' : Bool} {flag : Block} {as as' : List Answer}
    (hwaits : s.Waits) (hres : s.dowait flag jp as = some (r', as', s')) :
    ∃ ops, (Run.run Sys.step s ops).2 = s' ∧ s'.fg = s.fg := by
  rw [Sys.dowait] at hres
  generalize (if s.Running jp then flag else Block.nonblock) = flag' at hres
  split at hres
  case isTrue =>
    obtain ⟨-, -, rfl⟩ : _ ∧ _ ∧ s = s' := by simpa using hres
    exact ⟨[], rfl, rfl⟩
  case isFalse => exact dowaitLoop_run hwaits hres

/-! ### The claim on runs -/

theorem Effect.done (h : Agree s.jobs s.kids) (hbuild : s.Building)
    (heff : Effect s l op s' l') (hj : s.jobs.job? i = some j) (hused : j.used)
    (hdone : j.state = .done) (hj' : s'.jobs.job? i = some j') (hused' : j'.used) :
    j'.state = .done ∧ j'.ps = j.ps ∨
      (∃ nprocs mode base, op = .makejob nprocs mode base) ∧ j' = s.jobs.fresh := by
  have hkept : ∀ {t' k j₁}, Only s.jobs t' k j₁ → t'.job? i = some j' →
      (k = i → j₁.used → j₁.state = .done ∧ j₁.ps = j.ps) → j'.state = .done ∧ j'.ps = j.ps := by
    intro t' k j₁ honly hj' hcase
    rw [honly.job] at hj'
    by_cases hik : i = k
    · subst hik
      rw [Function.update_self] at hj'
      obtain rfl := Option.some.inj hj'
      exact hcase rfl hused'
    · rw [Function.update_of_ne hik, hj] at hj'
      obtain rfl := Option.some.inj hj'
      exact ⟨hdone, rfl⟩
  have hsame : ∀ {k j₁}, s.jobs.job? k = some j₁ → k = i → j₁ = j := fun hj₁ hk => by
    subst hk
    exact Option.some.inj (hj₁.symm.trans hj)
  have hstay : s.jobs.job? i = some j' → j'.state = .done ∧ j'.ps = j.ps := fun hj' => by
    obtain rfl : j = j' := Option.some.inj (hj.symm.trans hj')
    exact ⟨hdone, rfl⟩
  cases heff with
  | @makejob k t' nprocs mode base _ _ hmade =>
    by_cases hik : i = k
    · subst hik
      exact .inr ⟨⟨_, _, _, rfl⟩, Option.some.inj (hj'.symm.trans hmade.job)⟩
    · rcases hmade.other i hik with heq | ⟨hnone, -⟩
      · exact .inl (hstay (heq ▸ hj'))
      · rw [hnone] at hj
        cases hj
  | @fork f k j₁ t' pid cmd p hfg hleft hjp hk hj₁ _ _ _ _ honly =>
    refine .inl (hkept honly hj' fun hki _ => ?_)
    -- The job that is being made is not done.
    obtain rfl := hsame hj₁ hki
    obtain ⟨hne, hend⟩ := stateOf_done_iff.1 ((h.state k j₁ hj₁ hused).symm.trans hdone)
    obtain ⟨q, ps, hq⟩ := List.exists_cons_of_ne_nil hne
    have hmem : q ∈ j₁.ps := by simp [hq]
    exact absurd (.inl (hbuild f hfg hleft k j₁ hjp hj₁ q hmem)) (hend q hmem)
  | forkFailed _ _ _ _ _ honly => exact .inl (hkept honly hj' fun _ hu => by cases hu)
  | forkNoJob => exact .inl (hstay hj')
  | pipeFailed => exact .inl (hstay hj')
  | background => exact .inl (hstay hj')
  | nothing => exact .inl (hstay hj')
  | reported _ _ _ hact _ _ honly =>
    refine .inl (hkept honly hj' fun hki _ => ?_)
    obtain rfl := hsame hact.job hki
    exact absurd hdone hact.state
  | finished _ _ _ _ _ honly => exact .inl (hkept honly hj' fun _ hu => by cases hu)
  | left => exact .inl (hstay hj')
  | fgDone => exact .inl (hstay hj')
  | fg _ _ _ hj₁ hnot honly =>
    refine .inl (hkept honly hj' fun hki _ => ?_)
    obtain rfl := hsame hj₁ hki
    exact absurd hdone hnot
  | fgFailed _ _ _ hj₁ hnot honly =>
    refine .inl (hkept honly hj' fun hki _ => ?_)
    obtain rfl := hsame hj₁ hki
    exact absurd hdone hnot
  | bg _ _ hj₁ honly =>
    refine .inl (hkept honly hj' fun hki _ => ?_)
    obtain rfl := hsame hj₁ hki
    rw [if_pos hdone]
    exact ⟨hdone, rfl⟩
  | shown _ _ _ _ honly => exact .inl (hkept honly hj' fun _ hu => by cases hu)
  | noted _ _ _ hj₁ hps hstate _ honly =>
    refine .inl (hkept honly hj' fun hki _ => ?_)
    obtain rfl := hsame hj₁ hki
    exact ⟨hstate.trans hdone, hps⟩
  | settings hjob => exact .inl (hstay (hjob ▸ hj'))
  | forkchild hfree => exact absurd hused' (by simp [hfree i j' hj'])

/-- In a run whose steps are `StateOk`, every job in use with a process has the state that the
statuses of its processes give; a job that is done stays so until its entry is made anew; and
`waitforjob` comes back when the job does not run, with the status of the process that decides. -/
theorem job_states (h : s.Fresh) {ops : List Op}
    (hops : Run.Along Sys.step Sys.StateOk s ops) (hs' : s' = (Run.run Sys.step s ops).2) :
    (∀ i j, s'.jobs.job? i = some j → j.used → j.ps ≠ [] → j.state = stateOf j.ps) ∧
    (∀ op s'', s'.step? op = some s'' → ∀ i j j', s'.jobs.job? i = some j → j.used →
      j.state = .done → s''.jobs.job? i = some j' → j'.used →
      j'.state = .done ∧ j'.ps = j.ps ∨
        (∃ nprocs mode base, op = .makejob nprocs mode base) ∧ j' = s'.jobs.fresh) ∧
    (∀ i j as st as' s'', s'.Waits → s'.jobs.job? i = some j → j.used → j.ps ≠ [] →
      s'.waitforjob (s'.jobs.jobtab + i) as = some (st, as', s'') →
      ∃ j', s''.jobs.job? i = some j' ∧ pids j' = pids j ∧ j'.state ≠ .running ∧
        j'.state = stateOf j'.ps ∧ st = exitStatus (decisive s'.jobs.pipefail j'.ps)) := by
  have hcons : s'.Consistent := hs' ▸ run_consistent h hops
  refine ⟨fun i j hj hused _ => hcons.agree.state i j hj hused, ?_, ?_⟩
  · intro op s'' hstep i j j' hj hused hdone hj' hused'
    obtain ⟨l, htidy⟩ := hcons.tidy
    obtain ⟨l', heff, -⟩ := step_effect htidy hstep
    exact heff.done hcons.agree hcons.building hj hused hdone hj' hused'
  · intro i j as st as' s'' hwaits hj hused hps hres
    exact waitforjob_waited hcons hwaits hj hused (by simpa [pids] using hps) hres

/-! ### Runs of one command -/

/-- The child that a `fork` gives is new, and there is room for it. -/
theorem stateOk_fork {pid : Int} {cmd : List Char}
    (hnew : ∀ j ∈ s.jobs.tab, pid ∉ pids j) (hlen : ∀ j ∈ s.jobs.tab, j.ps.length + 1 < 2 ^ 16) :
    s.StateOk (.fork pid cmd) := by
  have hmem : ∀ {i j}, s.jobs.job? i = some j → ∃ j' ∈ s.jobs.tab, j'.unlinked = j := fun hj => by
    rw [job?, Option.map_eq_some_iff] at hj
    obtain ⟨j', hj', heq⟩ := hj
    exact ⟨j', List.mem_of_getElem? hj', heq⟩
  refine ⟨fun i j hj => ?_, fun f _ i j _ hj => ?_⟩
  · obtain ⟨j', hj', rfl⟩ := hmem hj.job
    exact hnew j' hj'
  · obtain ⟨j', hj', rfl⟩ := hmem hj
    exact hlen j' hj'

theorem stoppedCommand_stateOk :
    Run.Along Sys.step Sys.StateOk initSys (stoppedCommand 101 10) :=
  ⟨trivial, stateOk_fork (by decide +kernel) (by decide +kernel), trivial, trivial, trivial⟩

theorem job_states_stopped :
    ∃ j, (Run.run Sys.step initSys (stoppedCommand 101 10)).2.jobs.job? 0 = some j ∧
      j.state = .stopped ∧ j.state = stateOf j.ps := by
  have hany : ((Run.run Sys.step initSys (stoppedCommand 101 10)).2.jobs.job? 0).any (fun j =>
      decide (j.used ∧ j.ps ≠ [] ∧ j.state = .stopped)) = true := by
    decide +kernel
  obtain ⟨j, hj, hstop⟩ := (Option.any_eq_true _ _).1 hany
  obtain ⟨hused, hps, hstate⟩ := of_decide_eq_true hstop
  exact ⟨j, hj, hstate,
    (job_states initSys_fresh stoppedCommand_stateOk rfl).1 0 j hj hused hps⟩

/-- `fg` of a stopped job where the terminal cannot be given to it: the error leaves the job
marked as running, with a process that is stopped. -/
def failedFg : List Op := stoppedCommand 101 10 ++ [.fg 10 false]

theorem job_states_not :
    (Run.run Sys.step initSys failedFg).2.fg = none ∧
      ∃ j, (Run.run Sys.step initSys failedFg).2.jobs.job? 0 = some j ∧ j.used ∧ j.ps ≠ [] ∧
        j.state = .running ∧ stateOf j.ps = .stopped := by
  have hany : ((Run.run Sys.step initSys failedFg).2.jobs.job? 0).any (fun j =>
      decide (j.used ∧ j.ps ≠ [] ∧ j.state = .running ∧ stateOf j.ps = .stopped)) = true := by
    decide +kernel
  obtain ⟨j, hj, hbad⟩ := (Option.any_eq_true _ _).1 hany
  exact ⟨by decide +kernel, j, hj, of_decide_eq_true hbad⟩

end Bootsh.Jobs
