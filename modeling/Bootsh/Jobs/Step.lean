import Bootsh.Jobs.Wait
import Bootsh.Lib.Run

/-!
The steps of the shell on its jobs, and what each does to the jobs and to their order in the list.
-/
namespace Bootsh.Jobs

inductive Op
  /-- A job for `nprocs` processes; `base` is where a table that is full is moved to. -/
  | makejob (nprocs : ℕ) (mode : ForkMode) (base : ℕ)
  /-- The next process of the job that is being made. A negative `pid` is a failure. -/
  | fork (pid : Int) (cmd : List Char)
  /-- A process without a job, as the writer of a here-document. -/
  | forkNoJob (pid : Int)
  /-- The error of `evalpipe` where there is no pipe. -/
  | pipeFailed
  /-- A background job has its processes. -/
  | background
  | waitone (flag : Block) (a : Answer)
  /-- `waitforjob` is done with waiting for the job of the foreground. -/
  | waitforjob
  /-- `fg` up to where it waits. -/
  | fg (jp : ℕ) (tty : Bool)
  | bg (jp : ℕ)
  /-- `wait` marks the job. -/
  | wait (jp : ℕ)
  /-- `jobs` shows the job, or the prompt does. -/
  | showjob (jp : ℕ)
  | sigchld
  | setjobctl (on : Bool)
  | setpipefail (on : Bool)
  | stoppedjobs
  /-- The top level forgets the warning, one command later. -/
  | cmdloop
  /-- The run goes on in a child. -/
  | forkchild
deriving DecidableEq

/-- The operation leaves the jobs as they are. -/
def Op.Settings : Op → Prop
  | .sigchld | .setjobctl _ | .setpipefail _ | .stoppedjobs | .cmdloop => True
  | _ => False

/-- The entry of a job in use. -/
def used? (t : Jobs) (jp : ℕ) : Option Job := (t.entryAt jp).filter (·.used)

/-- No job is being made. -/
def Sys.Waits (s : Sys) : Prop := ∀ f ∈ s.fg, f.left = 0 ∧ f.mode ≠ .bg

instance (s : Sys) : Decidable s.Waits := inferInstanceAs (Decidable (∀ f ∈ s.fg, _))

def Sys.step? (s : Sys) : Op → Option Sys
  | .makejob nprocs mode base =>
    if s.fg = none ∧ nprocs ≠ 0 then
      (s.jobs.makejob base).map fun (jp, t) =>
        { s with jobs := t, fg := some { jp := jp, left := nprocs, mode := mode } }
    else none
  | .fork pid cmd =>
    s.fg.bind fun f =>
      if f.left = 0 then none
      else if pid < 0 then
        (s.jobs.freejob f.jp).map fun t => { s with jobs := t, fg := none }
      else if pid ≠ 0 ∧ pid ∉ s.kids then
        (s.jobs.forkparent f.jp f.mode pid cmd).map fun t =>
          { s with jobs := t, kids := pid :: s.kids, fg := some { f with left := f.left - 1 } }
      else none
  | .forkNoJob pid =>
    if 0 < pid ∧ pid ∉ s.kids then some { s with kids := pid :: s.kids } else none
  | .pipeFailed =>
    s.fg.bind fun f => if f.left = 0 then none else some { s with fg := none }
  | .background =>
    s.fg.bind fun f => if f.left = 0 ∧ f.mode = .bg then some { s with fg := none } else none
  | .waitone flag a =>
    if s.Waits then s.waitone flag a else none
  | .waitforjob =>
    s.fg.bind fun f =>
      if f.left = 0 ∧ f.mode ≠ .bg ∧ (¬ s.Running (some f.jp) ∨ s.kids = []) then
        (s.jobs.waitedfor f.jp).map fun (_, t) => { s with jobs := t, fg := none }
      else none
  | .fg jp tty =>
    if s.fg = none ∧ (s.jobs.used? jp).isSome then
      (s.jobs.resume jp .fg tty).map fun (t, ok) =>
        { s with
          jobs := t, fg := if ok then some { jp := jp, left := 0, mode := .fg } else none }
    else none
  | .bg jp =>
    if s.fg = none ∧ (s.jobs.used? jp).isSome then
      (s.jobs.set_curjob jp .running).bind fun t =>
        (t.resume jp .bg true).map fun (t, _) => { s with jobs := t }
    else none
  | .wait jp =>
    if s.fg = none then
      (s.jobs.used? jp).map fun j => { s with jobs := s.jobs.put jp { j with waited := true } }
    else none
  | .showjob jp =>
    if s.fg = none then
      (s.jobs.used? jp).bind fun j =>
        let t := s.jobs.put jp { j with changed := false }
        (if j.state = .done then t.freejob jp else some t).map fun t => { s with jobs := t }
    else none
  | .sigchld => some { s with gotsigchld := true }
  | .setjobctl on =>
    if s.fg = none then some { s with jobs := { s.jobs with jobctl := on } } else none
  | .setpipefail on =>
    if s.fg = none then some { s with jobs := { s.jobs with pipefail := on } } else none
  | .stoppedjobs =>
    if s.fg = none then some { s with jobs := s.jobs.stoppedjobs.2 } else none
  | .cmdloop =>
    if s.fg = none then
      let w := if s.jobs.job_warning = 2 then 1 else 0
      some { s with jobs := { s.jobs with job_warning := w } }
    else none
  | .forkchild =>
    (s.jobs.freeall s.jobs.fuel s.jobs.curjob).map fun t =>
      { jobs := { t with jobctl := false }, kids := [], gotsigchld := s.gotsigchld, fg := none }

/-- A step that cannot be made leaves the system as it is. -/
def Sys.step (s : Sys) (op : Op) : Unit × Sys := ((), (s.step? op).getD s)

/-! ### What a step can do -/

/-- The state that the statuses of its processes give a job. It is running as long as no process
has been made. -/
def stateOf (ps : List Procstat) : JobState :=
  if ps = [] ∨ ∃ p ∈ ps, p.status = -1 then .running
  else if ∃ p ∈ ps, WIFSTOPPED p.status then .stopped
  else .done

theorem scanState_eq {ps : List Procstat} (state : JobState) :
    scanState state ps =
      if state = .running ∨ ∃ p ∈ ps, p.status = -1 then .running
      else if ∃ p ∈ ps, WIFSTOPPED p.status then .stopped else state := by
  induction ps generalizing state with
  | nil => cases state <;> simp [scanState]
  | cons p ps ih =>
    rw [scanState, ih]
    by_cases hrun : p.status = -1
    · simp [hrun]
    · by_cases hstate : state = .running
      · simp [hstate]
      · by_cases hstop : WIFSTOPPED p.status = true
        · simp [hrun, hstate, hstop]
        · simp [hrun, hstate, hstop]

theorem scanState_done {ps : List Procstat} (h : ps ≠ []) : scanState .done ps = stateOf ps := by
  rw [scanState_eq, stateOf]
  simp [h]

/-- A job after the report of one of its processes. -/
def received (j : Job) (a : Answer) : Job :=
  let ps := setStatus a.pid a.status j.ps
  if stateOf ps = .running then { j with ps := ps }
  else { j with ps := ps, changed := true, state := stateOf ps }

/-- The job stops with the report. -/
def Stops (j : Job) (a : Answer) : Prop :=
  stateOf (setStatus a.pid a.status j.ps) = .stopped ∧ j.state ≠ .stopped

instance (j : Job) (a : Answer) : Decidable (Stops j a) := inferInstanceAs (Decidable (_ ∧ _))

/-- A job that is in use and not done. -/
structure Active (t : Jobs) (i : ℕ) (j : Job) : Prop where
  job : t.job? i = some j
  used : j.used
  state : j.state ≠ .done

/-- A stopped job that runs again. -/
def resumed (j : Job) : Job :=
  { j with
    state := .running
    ps := j.ps.map fun p => if WIFSTOPPED p.status then { p with status := -1 } else p }

/-- Nothing but the job at `i`, and the order, is changed. -/
structure Only (t t' : Jobs) (i : ℕ) (j : Job) : Prop where
  job : t'.job? = Function.update t.job? i (some j)
  jobtab : t'.jobtab = t.jobtab
  pipefail : t'.pipefail = t.pipefail

/-- The list is `l`, and the job of the foreground is in it. -/
structure Sys.Tidy (s : Sys) (l : List ℕ) : Prop where
  listed : s.jobs.Listed l
  fg : ∀ f ∈ s.fg, ∃ i ∈ l, f.jp = s.jobs.jobtab + i

/-- The effects of a step on the system and on the order of the list. -/
inductive Effect (s : Sys) (l : List ℕ) : Op → Sys → List ℕ → Prop
  | makejob {i t' nprocs mode base} (hidle : s.fg = none) (hnprocs : nprocs ≠ 0)
    (hmade : Made s.jobs t' i) :
    Effect s l (.makejob nprocs mode base)
      { s with jobs := t', fg := some { jp := t'.jobtab + i, left := nprocs, mode := mode } }
      (i :: l.erase i)
  | fork {f i j t' pid cmd p} (hfg : s.fg = some f) (hleft : f.left ≠ 0)
    (hjp : f.jp = s.jobs.jobtab + i) (hi : i ∈ l) (hj : s.jobs.job? i = some j)
    (hpid : 0 < pid) (hnew : pid ∉ s.kids) (hp : p.pid = pid) (hstatus : p.status = -1)
    (honly : Only s.jobs t' i { j with ps := addProc j.ps p }) :
    Effect s l (.fork pid cmd)
      { s with jobs := t', kids := pid :: s.kids, fg := some { f with left := f.left - 1 } }
      (if f.mode = .bg then s.jobs.order .running i (l.erase i) else l)
  | forkFailed {f i j t' pid cmd} (hfg : s.fg = some f) (hjp : f.jp = s.jobs.jobtab + i)
    (hi : i ∈ l) (hj : s.jobs.job? i = some j) (hpid : pid < 0)
    (honly : Only s.jobs t' i { j with used := false }) :
    Effect s l (.fork pid cmd) { s with jobs := t', fg := none } (l.erase i)
  | forkNoJob {pid} (hpid : 0 < pid) (hnew : pid ∉ s.kids) :
    Effect s l (.forkNoJob pid) { s with kids := pid :: s.kids } l
  | pipeFailed {f} (hfg : s.fg = some f) (hleft : f.left ≠ 0) :
    Effect s l .pipeFailed { s with fg := none } l
  | background {f} (hfg : s.fg = some f) (hleft : f.left = 0) (hmode : f.mode = .bg) :
    Effect s l .background { s with fg := none } l
  | nothing {flag a} (hwaits : s.Waits) (hans : s.Answers flag a)
    (hmiss : 0 < a.pid → ∀ i j, Active s.jobs i j → a.pid ∉ j.ps.map (·.pid)) :
    Effect s l (.waitone flag a) { s with kids := s.reap a, gotsigchld := a.sigchld } l
  | reported {flag a i j t'} (hwaits : s.Waits) (hans : s.Answers flag a) (hpid : 0 < a.pid)
    (hj : Active s.jobs i j) (hi : i ∈ l) (hhit : a.pid ∈ j.ps.map (·.pid))
    (honly : Only s.jobs t' i (received j a)) :
    Effect s l (.waitone flag a) { s with jobs := t', kids := s.reap a, gotsigchld := a.sigchld }
      (if Stops j a then i :: l.erase i else l)
  | finished {f i j t'} (hfg : s.fg = some f) (hjp : f.jp = s.jobs.jobtab + i) (hi : i ∈ l)
    (hj : s.jobs.job? i = some j) (hdone : j.state = .done)
    (honly : Only s.jobs t' i { j with used := false }) :
    Effect s l .waitforjob { s with jobs := t', fg := none } (l.erase i)
  | left {f i j} (hfg : s.fg = some f) (hjp : f.jp = s.jobs.jobtab + i) (hi : i ∈ l)
    (hj : s.jobs.job? i = some j) (hdone : j.state ≠ .done) :
    Effect s l .waitforjob { s with fg := none } l
  | fgDone {i j jp tty} (hidle : s.fg = none) (hjp : jp = s.jobs.jobtab + i) (hi : i ∈ l)
    (hj : s.jobs.job? i = some j) (hdone : j.state = .done) :
    Effect s l (.fg jp tty) { s with fg := some { jp := jp, left := 0, mode := .fg } } l
  | fg {i j jp t'} (hidle : s.fg = none) (hjp : jp = s.jobs.jobtab + i) (hi : i ∈ l)
    (hj : s.jobs.job? i = some j) (hdone : j.state ≠ .done)
    (honly : Only s.jobs t' i (resumed j)) :
    Effect s l (.fg jp true)
      { s with jobs := t', fg := some { jp := jp, left := 0, mode := .fg } } l
  | fgFailed {i j jp t'} (hidle : s.fg = none) (hjp : jp = s.jobs.jobtab + i) (hi : i ∈ l)
    (hj : s.jobs.job? i = some j) (hdone : j.state ≠ .done)
    (honly : Only s.jobs t' i { j with state := .running }) :
    Effect s l (.fg jp false) { s with jobs := t', fg := none } l
  | bg {i j jp t'} (hidle : s.fg = none) (hi : i ∈ l) (hj : s.jobs.job? i = some j)
    (honly : Only s.jobs t' i (if j.state = .done then j else resumed j)) :
    Effect s l (.bg jp) { s with jobs := t' } (s.jobs.order .running i (l.erase i))
  | shown {i j jp t'} (hidle : s.fg = none) (hi : i ∈ l) (hj : s.jobs.job? i = some j)
    (hdone : j.state = .done)
    (honly : Only s.jobs t' i { j with changed := false, used := false }) :
    Effect s l (.showjob jp) { s with jobs := t' } (l.erase i)
  | noted {op i j j' t'} (hop : ∃ jp, op = .wait jp ∨ op = .showjob jp) (hidle : s.fg = none)
    (hi : i ∈ l) (hj : s.jobs.job? i = some j) (hps : j'.ps = j.ps) (hstate : j'.state = j.state)
    (hused : j'.used = j.used) (honly : Only s.jobs t' i j') :
    Effect s l op { s with jobs := t' } l
  | settings {op t' b} (hjob : t'.job? = s.jobs.job?) (htab : t'.jobtab = s.jobs.jobtab)
    (hop : op.Settings) : Effect s l op { s with jobs := t', gotsigchld := b } l
  | forkchild {t'} (hfree : ∀ i j, t'.job? i = some j → j.used = false) :
    Effect s l .forkchild { jobs := t', kids := [], gotsigchld := s.gotsigchld, fg := none } []

variable {t t' : Jobs} {s s' : Sys} {l : List ℕ} {i jp : ℕ} {j : Job}

theorem used?_spec (h : t.Listed l) (hj : t.used? jp = some j) :
    ∃ i ∈ l, jp = t.jobtab + i ∧ t.entryAt (t.jobtab + i) = some j ∧
      t.job? i = some j.unlinked := by
  obtain ⟨hentry, hused⟩ := Option.filter_eq_some_iff.1 hj
  obtain ⟨hle, -⟩ := lt_of_entry hentry
  obtain ⟨i, rfl⟩ := Nat.exists_eq_add_of_le hle
  have hjob : t.job? i = some j.unlinked := by
    rw [job?_eq_entryAt, hentry]
    rfl
  exact ⟨i, (h.used i).2 ⟨_, hjob, hused⟩, rfl, hentry, hjob⟩

theorem Listed.entry (h : t.Listed l) (hi : i ∈ l) :
    ∃ j, t.entryAt (t.jobtab + i) = some j ∧ t.job? i = some j.unlinked ∧ j.used := by
  obtain ⟨j, hj, hused⟩ := h.job hi
  obtain ⟨j', hj', rfl⟩ := entry_of_job? hj
  exact ⟨j', hj', hj, hused⟩

theorem Only.of_unlinked (hj : t.entryAt (t.jobtab + i) = some j) {j' : Job}
    (h : t'.unlinked = (t.put (t.jobtab + i) j').unlinked) : Only t t' i j'.unlinked :=
  ⟨(job?_of_unlinked h).trans (job?_put hj _), (congrArg Jobs.jobtab h :),
    (congrArg Jobs.pipefail h :)⟩

theorem Only.of_put (hj : t.entryAt (t.jobtab + i) = some j) (j' : Job) :
    Only t (t.put (t.jobtab + i) j') i j'.unlinked := .of_unlinked hj rfl

/-- The tables before and after `set_curjob` are the same but for the order. -/
theorem Only.of_moved {t₁ : Jobs} {j' : Job} (hun : t₁.unlinked = t.unlinked)
    (h : Only t₁ t' i j') : Only t t' i j' := by
  refine ⟨?_, ?_, ?_⟩
  · rw [h.job, job?_of_unlinked hun]
  · exact h.jobtab.trans (jobtab_of_unlinked hun)
  · exact h.pipefail.trans (congrArg Jobs.pipefail hun :)

theorem forkparent_spec (h : t.Listed l) (hi : i ∈ l) (mode : ForkMode) (pid : Int)
    (cmd : List Char) :
    ∃ j p t', t.job? i = some j ∧ p.pid = pid ∧ p.status = -1 ∧
      t.forkparent (t.jobtab + i) mode pid cmd = some t' ∧
      Only t t' i { j with ps := addProc j.ps p } ∧
      t'.Listed (if mode = .bg then t.order .running i (l.erase i) else l) := by
  obtain ⟨t₁, hmoved, hjob, htab, hpipe, hlisted⟩ : ∃ t₁,
      t.background (t.jobtab + i) mode pid = some t₁ ∧ t₁.job? = t.job? ∧
      t₁.jobtab = t.jobtab ∧ t₁.pipefail = t.pipefail ∧
      t₁.Listed (if mode = .bg then t.order .running i (l.erase i) else l) := by
    rw [Jobs.background]
    by_cases hmode : mode = .bg
    · have h₀ : ({ t with backgndpid := pid } : Jobs).Listed l := ⟨h.holds, h.used⟩
      obtain ⟨t₁, hset, hun, hlisted⟩ := h₀.set_curjob hi .running (by decide)
      rw [if_pos hmode, if_pos hmode]
      exact ⟨t₁, hset, (job?_of_unlinked hun :), (congrArg Jobs.jobtab hun :),
        (congrArg Jobs.pipefail hun :), hlisted⟩
    · rw [if_neg hmode, if_neg hmode]
      exact ⟨t, rfl, rfl, rfl, rfl, h⟩
  have hmem : i ∈ (if mode = .bg then t.order .running i (l.erase i) else l) := by
    split
    case isTrue => exact mem_order_running.2 (.inl rfl)
    case isFalse => exact hi
  obtain ⟨j, hentry, hj, -⟩ := hlisted.entry hmem
  have honly := Only.of_put hentry { j with ps := addProc j.ps (t₁.forked pid cmd) }
  refine ⟨j.unlinked, t₁.forked pid cmd, _, by rw [← hjob, hj], rfl, rfl, ?_, ?_,
    hlisted.put hentry { j with ps := addProc j.ps (t₁.forked pid cmd) } rfl rfl⟩
  · rw [forkparent, hmoved, Option.bind_some, ← htab, hentry]
    rfl
  · exact ⟨honly.job.trans (by rw [hjob]; rfl), honly.jobtab.trans htab,
      honly.pipefail.trans hpipe⟩

/-- The walk finds the first job that has the process, or there is none. -/
theorem report_path (pid status : Int) {l' : List ℕ} {p : Option ℕ} {fuel : ℕ}
    (hpath : Links.Path t.links.next p (l'.map (t.jobtab + ·))) (hfuel : l'.length < fuel)
    (hentry : ∀ i ∈ l', ∃ j, t.entryAt (t.jobtab + i) = some j ∧ t.job? i = some j.unlinked ∧
      j.used) :
    (t.report pid status fuel p = some (t, none) ∧
      ∀ i ∈ l', ∀ j, Active t i j → pid ∉ j.ps.map (·.pid)) ∨
    ∃ i ∈ l', ∃ j, t.entryAt (t.jobtab + i) = some j ∧ Active t i j.unlinked ∧
      pid ∈ j.ps.map (·.pid) ∧
      t.report pid status fuel p =
        some (t.put (t.jobtab + i) { j with ps := setStatus pid status j.ps },
          some (t.jobtab + i, scanState .done (setStatus pid status j.ps))) := by
  induction l' generalizing p fuel with
  | nil =>
    cases fuel with
    | zero => simp at hfuel
    | succ fuel =>
      obtain rfl : p = none := hpath
      exact .inl ⟨rfl, by simp⟩
  | cons i l' ih =>
    cases fuel with
    | zero => simp at hfuel
    | succ fuel =>
      obtain ⟨rfl, hrest⟩ := hpath
      obtain ⟨j, hj, hjob, hused⟩ := hentry i (by simp)
      rw [report, hj, Option.bind_some]
      by_cases hhit : j.state ≠ .done ∧ pid ∈ j.ps.map (·.pid)
      · rw [if_pos hhit]
        exact .inr ⟨i, by simp, j, hj, ⟨hjob, hused, hhit.1⟩, hhit.2, rfl⟩
      · have hnext : t.links.next (t.jobtab + i) = j.prev_job := by
          simp only [links, hj, Option.bind_some]
        have hmiss : ∀ j', Active t i j' → pid ∉ j'.ps.map (·.pid) := by
          rintro j' ⟨hjob', -, hstate⟩ hpid
          obtain rfl : j.unlinked = j' := Option.some.inj (hjob.symm.trans hjob')
          exact hhit ⟨hstate, hpid⟩
        rw [if_neg hhit, ← hnext]
        rcases ih hrest (by simpa using hfuel) (fun k hk => hentry k (by simp [hk])) with
          ⟨hrep, hnone⟩ | ⟨k, hk, hfound⟩
        · refine .inl ⟨hrep, fun k hk j' hj' => ?_⟩
          rcases List.mem_cons.1 hk with rfl | hk
          · exact hmiss j' hj'
          · exact hnone k hk j' hj'
        · exact .inr ⟨k, by simp [hk], hfound⟩

theorem setStatus_ne_nil {pid status : Int} {ps : List Procstat} (h : pid ∈ ps.map (·.pid)) :
    setStatus pid status ps ≠ [] := by
  rintro hnil
  rw [setStatus, List.map_eq_nil_iff] at hnil
  simp [hnil] at h

theorem Listed.active (h : t.Listed l) (hj : Active t i j) : i ∈ l :=
  (h.used i).2 ⟨j, hj.job, hj.used⟩

theorem freeall_spec {fuel : ℕ} (h : t.Listed l) (hfuel : l.length < fuel) :
    ∃ t', t.freeall fuel t.curjob = some t' ∧ t'.Listed [] := by
  induction l generalizing t fuel with
  | nil =>
    cases fuel with
    | zero => simp at hfuel
    | succ fuel =>
      have hcur : t.curjob = none := h.holds
      refine ⟨t, ?_, h⟩
      rw [hcur]
      rfl
  | cons i l ih =>
    cases fuel with
    | zero => simp at hfuel
    | succ fuel =>
      have hcur : t.curjob = some (t.jobtab + i) := h.holds.1
      obtain ⟨j, hj, -⟩ := h.entry List.mem_cons_self
      obtain ⟨j₁, t₁, hj₁, hfree, hun, hlisted⟩ := h.freejob List.mem_cons_self
      obtain rfl : j = j₁ := Option.some.inj (hj.symm.trans hj₁)
      rw [List.erase_cons_head] at hlisted
      rw [freejob_head hcur hj] at hfree
      obtain rfl := Option.some.inj hfree
      obtain ⟨t', ht', hnil⟩ := @ih _ fuel hlisted (by simpa using hfuel)
      have hentry : ({ t.put (t.jobtab + i) { j with used := false } with
          curjob := j.prev_job } : Jobs).entryAt (t.jobtab + i) =
            some { j with used := false } := (entryAt_put hj _ _).trans (if_pos rfl)
      refine ⟨t', ?_, hnil⟩
      rw [hcur, freeall, freejob_head hcur hj, Option.bind_some, hentry, Option.bind_some]
      exact ht'

theorem gotjob_spec (h : t.Listed l) (hi : i ∈ l) (hj : t.entryAt (t.jobtab + i) = some j)
    (state : JobState) :
    ∃ t', t.gotjob (t.jobtab + i) state = some t' ∧
      Only t t' i (if state = .running then j.unlinked
        else { j.unlinked with changed := true, state := state }) ∧
      t'.Listed (if state = .stopped ∧ j.state ≠ .stopped then i :: l.erase i else l) := by
  have hjob : t.job? i = some j.unlinked := by
    rw [job?_eq_entryAt, hj]
    rfl
  rw [gotjob, hj, Option.bind_some]
  by_cases hrun : state = .running
  · subst hrun
    refine ⟨t, rfl, ⟨?_, rfl, rfl⟩, h⟩
    rw [if_pos rfl, ← hjob, Function.update_eq_self]
  · rw [if_neg hrun, if_neg hrun]
    by_cases hsame : j.state = state
    · subst hsame
      refine ⟨_, if_pos rfl, Only.of_put hj { j with changed := true }, ?_⟩
      rw [if_neg (fun hc => hc.2 hc.1)]
      exact h.put hj _ rfl rfl
    · rw [if_neg hsame]
      have hput := h.put hj { j with changed := true, state := state } rfl rfl
      have honly := Only.of_put hj { j with changed := true, state := state }
      by_cases hstop : state = .stopped
      · subst hstop
        obtain ⟨t', hset, hun, hlisted⟩ := hput.set_curjob hi .stopped (by decide)
        refine ⟨t', hset, Only.of_unlinked hj hun, ?_⟩
        rw [if_pos ⟨rfl, hsame⟩]
        exact hlisted
      · refine ⟨_, if_neg hstop, honly, ?_⟩
        rw [if_neg (fun hc => hstop hc.1)]
        exact hput

theorem waitone_effect {flag : Block} {a : Answer} (h : s.Tidy l) (hwaits : s.Waits)
    (hstep : s.waitone flag a = some s') :
    ∃ l', Effect s l (.waitone flag a) s' l' ∧ s'.jobs.Listed l' ∧
      s'.fg = s.fg ∧ s'.jobs.jobtab = s.jobs.jobtab ∧ ∀ i ∈ l, i ∈ l' := by
  rw [Sys.waitone] at hstep
  by_cases hans : s.Answers flag a
  · rw [if_pos hans] at hstep
    by_cases hpid : a.pid ≤ 0
    · rw [if_pos hpid] at hstep
      obtain rfl := Option.some.inj hstep
      exact ⟨l, .nothing hwaits hans (fun hpos => absurd hpos (by omega)), h.listed, rfl, rfl,
        fun _ => id⟩
    · rw [if_neg hpid] at hstep
      have hpath : Links.Path s.jobs.links.next s.jobs.curjob (l.map (s.jobs.jobtab + ·)) :=
        h.listed.holds
      rcases report_path a.pid a.status hpath h.listed.length_lt_fuel
        (fun i hi => h.listed.entry hi) with ⟨hrep, hmiss⟩ | ⟨i, hi, j, hj, hact, hhit, hrep⟩
      · rw [hrep, Option.bind_some] at hstep
        obtain rfl := Option.some.inj hstep
        exact ⟨l, .nothing hwaits hans (fun _ i j hact => hmiss i (h.listed.active hact) j hact),
          h.listed, rfl, rfl, fun _ => id⟩
      · let ps := setStatus a.pid a.status j.ps
        rw [hrep, Option.bind_some] at hstep
        have hput := h.listed.put hj { j with ps := ps } rfl rfl
        have honly := Only.of_put hj { j with ps := ps }
        have hj' : (s.jobs.put (s.jobs.jobtab + i) { j with ps := ps }).entryAt
            (s.jobs.jobtab + i) = some { j with ps := ps } :=
          (entryAt_put hj _ _).trans (if_pos rfl)
        obtain ⟨t', hgot, honly', hlisted⟩ := gotjob_spec hput hi hj' (scanState .done ps)
        dsimp only at hstep
        rw [show gotjob (s.jobs.put (s.jobs.jobtab + i) { j with ps := ps })
          (s.jobs.jobtab + i) (scanState .done ps) = some t' from hgot, Option.map_some] at hstep
        obtain rfl := Option.some.inj hstep
        rw [scanState_done (setStatus_ne_nil hhit)] at honly' hlisted
        have hrec : Only s.jobs t' i (received j.unlinked a) := by
          refine ⟨?_, honly'.jobtab.trans honly.jobtab, honly'.pipefail.trans honly.pipefail⟩
          rw [honly'.job, honly.job, Function.update_idem]
          rfl
        refine ⟨_, .reported hwaits hans (by omega) hact hi hhit hrec, ?_, rfl, hrec.jobtab, ?_⟩
        · exact hlisted
        · intro k hk
          split
          case isTrue =>
            by_cases hki : k = i
            · simp [hki]
            · exact List.mem_cons_of_mem _ ((h.listed.nodup.mem_erase_iff).2 ⟨hki, hk⟩)
          case isFalse => exact hk
  · rw [if_neg hans] at hstep
    cases hstep

theorem freejob_only (h : t.Listed l) (hi : i ∈ l) :
    ∃ j t', t.job? i = some j ∧ j.used ∧ t.freejob (t.jobtab + i) = some t' ∧
      Only t t' i { j with used := false } ∧ t'.Listed (l.erase i) := by
  obtain ⟨j, hj, hjob, hused⟩ := h.entry hi
  obtain ⟨j₁, t', hj₁, hfree, hun, hlisted⟩ := h.freejob hi
  obtain rfl : j = j₁ := Option.some.inj (hj.symm.trans hj₁)
  exact ⟨j.unlinked, t', hjob, hused, hfree, Only.of_unlinked hj hun, hlisted⟩

theorem used?_eq (h : t.Listed l) (hsome : (t.used? jp).isSome) :
    ∃ i ∈ l, ∃ j, jp = t.jobtab + i ∧ t.used? jp = some j ∧
      t.entryAt (t.jobtab + i) = some j ∧ t.job? i = some j.unlinked := by
  obtain ⟨j, hj⟩ := Option.isSome_iff_exists.1 hsome
  obtain ⟨i, hi, hjp, hentry, hjob⟩ := used?_spec h hj
  exact ⟨i, hi, j, hjp, hj, hentry, hjob⟩

theorem fork_effect {pid : Int} {cmd : List Char} (h : s.Tidy l)
    (hstep : s.step? (.fork pid cmd) = some s') :
    ∃ l', Effect s l (.fork pid cmd) s' l' ∧ s'.Tidy l' := by
  rw [Sys.step?, Option.bind_eq_some_iff] at hstep
  obtain ⟨f, hfg, hstep⟩ := hstep
  obtain ⟨i, hi, hjp⟩ := h.fg f hfg
  by_cases hleft : f.left = 0
  · rw [if_pos hleft] at hstep
    cases hstep
  · rw [if_neg hleft] at hstep
    by_cases hneg : pid < 0
    · obtain ⟨j, t', hj, -, hfree, honly, hlisted⟩ := freejob_only h.listed hi
      rw [if_pos hneg, hjp, hfree] at hstep
      obtain rfl := Option.some.inj hstep
      exact ⟨_, .forkFailed hfg hjp hi hj hneg honly, hlisted, by simp⟩
    · rw [if_neg hneg] at hstep
      by_cases hpid : pid ≠ 0 ∧ pid ∉ s.kids
      · obtain ⟨j, p, t', hj, hp, hstatus, hpar, honly, hlisted⟩ :=
          forkparent_spec h.listed hi f.mode pid cmd
        rw [← hjp] at hpar
        rw [if_pos hpid, hpar] at hstep
        obtain rfl := Option.some.inj hstep
        refine ⟨_, .fork hfg hleft hjp hi hj (by omega) hpid.2 hp hstatus honly, hlisted, ?_⟩
        rintro f' hf'
        obtain rfl := Option.some.inj hf'
        refine ⟨i, ?_, hjp.trans (congrArg (· + i) honly.jobtab.symm)⟩
        split
        case isTrue => exact mem_order_running.2 (.inl rfl)
        case isFalse => exact hi
      · rw [if_neg hpid] at hstep
        cases hstep

theorem waitforjob_effect (h : s.Tidy l) (hstep : s.step? .waitforjob = some s') :
    ∃ l', Effect s l .waitforjob s' l' ∧ s'.Tidy l' := by
  rw [Sys.step?, Option.bind_eq_some_iff] at hstep
  obtain ⟨f, hfg, hstep⟩ := hstep
  obtain ⟨i, hi, hjp⟩ := h.fg f hfg
  split at hstep
  case isTrue =>
    obtain ⟨j, hj, hjob, -⟩ := h.listed.entry hi
    rw [waitedfor, hjp, hj, Option.bind_some] at hstep
    by_cases hdone : j.state = .done
    · obtain ⟨j₁, t', hj₁, -, hfree, honly, hlisted⟩ := freejob_only h.listed hi
      rw [if_pos hdone, hfree] at hstep
      obtain rfl := Option.some.inj hstep
      obtain rfl : j.unlinked = j₁ := Option.some.inj (hjob.symm.trans hj₁)
      exact ⟨_, .finished hfg hjp hi hj₁ hdone honly, hlisted, by simp⟩
    · rw [if_neg hdone] at hstep
      obtain rfl := Option.some.inj hstep
      exact ⟨l, .left hfg hjp hi hjob hdone, h.listed, by simp⟩
  case isFalse => cases hstep

theorem resume_spec (h : t.Listed l) (hi : i ∈ l) (mode : ForkMode) (tty : Bool) :
    ∃ j, t.job? i = some j ∧
      (j.state = .done ∧ t.resume (t.jobtab + i) mode tty = some (t, true) ∨
      ∃ t', j.state ≠ .done ∧ t'.Listed l ∧
        (mode = .fg ∧ tty = false ∧ t.resume (t.jobtab + i) mode tty = some (t', false) ∧
          Only t t' i { j with state := .running } ∨
        (mode = .fg → tty = true) ∧ t.resume (t.jobtab + i) mode tty = some (t', true) ∧
          Only t t' i (resumed j))) := by
  obtain ⟨j, hj, hjob, -⟩ := h.entry hi
  refine ⟨j.unlinked, hjob, ?_⟩
  rw [resume, hj, Option.map_some]
  by_cases hdone : j.state = .done
  · rw [if_pos hdone]
    exact .inl ⟨hdone, rfl⟩
  · rw [if_neg hdone]
    by_cases hfail : mode = .fg ∧ !tty
    · refine .inr ⟨_, hdone, h.put hj { j with state := .running } rfl rfl,
        .inl ⟨hfail.1, by simpa using hfail.2, ?_, Only.of_put hj _⟩⟩
      dsimp only
      rw [if_pos hfail]
    · refine .inr ⟨_, hdone, h.put hj (resumed j) rfl rfl,
        .inr ⟨fun hm => ?_, ?_, Only.of_put hj _⟩⟩
      · by_contra htty
        exact hfail ⟨hm, by simpa using htty⟩
      · dsimp only
        rw [if_neg hfail]
        rfl

theorem fg_effect {tty : Bool} (h : s.Tidy l) (hstep : s.step? (.fg jp tty) = some s') :
    ∃ l', Effect s l (.fg jp tty) s' l' ∧ s'.Tidy l' := by
  rw [Sys.step?] at hstep
  split at hstep
  case isTrue hidle =>
    obtain ⟨i, hi, j, rfl, -, -, -⟩ := used?_eq h.listed hidle.2
    obtain ⟨j, hj, ⟨hdone, hres⟩ | ⟨t', hdone, hlisted, ⟨-, rfl, hres, honly⟩ |
      ⟨htty, hres, honly⟩⟩⟩ := resume_spec h.listed hi .fg tty
    · rw [hres] at hstep
      obtain rfl := Option.some.inj hstep
      refine ⟨l, .fgDone hidle.1 rfl hi hj hdone, h.listed, ?_⟩
      rintro f hf
      obtain rfl := Option.some.inj hf
      exact ⟨i, hi, rfl⟩
    · rw [hres] at hstep
      obtain rfl := Option.some.inj hstep
      exact ⟨l, .fgFailed hidle.1 rfl hi hj hdone honly, hlisted, by simp⟩
    · rw [hres] at hstep
      obtain rfl := Option.some.inj hstep
      obtain rfl := htty rfl
      refine ⟨l, .fg hidle.1 rfl hi hj hdone honly, hlisted, ?_⟩
      rintro f hf
      obtain rfl := Option.some.inj hf
      exact ⟨i, hi, congrArg (· + i) honly.jobtab.symm⟩
  case isFalse => cases hstep

theorem bg_effect (h : s.Tidy l) (hstep : s.step? (.bg jp) = some s') :
    ∃ l', Effect s l (.bg jp) s' l' ∧ s'.Tidy l' := by
  rw [Sys.step?] at hstep
  split at hstep
  case isTrue hidle =>
    obtain ⟨i, hi, j₀, rfl, -, -, hj₀⟩ := used?_eq h.listed hidle.2
    obtain ⟨t₁, hset, hun, hlisted₁⟩ := h.listed.set_curjob hi .running (by decide)
    have hjob₁ := job?_of_unlinked hun
    have hmem : i ∈ s.jobs.order .running i (l.erase i) := mem_order_running.2 (.inl rfl)
    rw [hset, Option.bind_some, ← jobtab_of_unlinked hun] at hstep
    obtain ⟨j, hj, ⟨hdone, hres⟩ | ⟨t', hdone, hlisted, ⟨hmode, -⟩ | ⟨-, hres, honly⟩⟩⟩ :=
      resume_spec hlisted₁ hmem .bg true
    · rw [hres] at hstep
      obtain rfl := Option.some.inj hstep
      rw [hjob₁] at hj
      refine ⟨_, .bg hidle.1 hi hj ⟨?_, jobtab_of_unlinked hun, (congrArg Jobs.pipefail hun :)⟩,
        hlisted₁, by simp [hidle.1]⟩
      rw [if_pos hdone, ← hj, Function.update_eq_self, hjob₁]
    · cases hmode
    · rw [hres] at hstep
      obtain rfl := Option.some.inj hstep
      rw [hjob₁] at hj
      refine ⟨_, .bg hidle.1 hi hj ?_, hlisted, by simp [hidle.1]⟩
      rw [if_neg hdone]
      exact honly.of_moved hun
  case isFalse => cases hstep

theorem noted_effect {op : Op} (j' : Job) (h : s.Tidy l) (hidle : s.fg = none)
    (hop : ∃ jp, op = .wait jp ∨ op = .showjob jp) (hi : i ∈ l)
    (hj : s.jobs.entryAt (s.jobs.jobtab + i) = some j) (hps : j'.ps = j.ps)
    (hstate : j'.state = j.state) (hused : j'.used = j.used) (hprev : j'.prev_job = j.prev_job) :
    Effect s l op { s with jobs := s.jobs.put (s.jobs.jobtab + i) j' } l ∧
      Sys.Tidy { s with jobs := s.jobs.put (s.jobs.jobtab + i) j' } l := by
  have hjob : s.jobs.job? i = some j.unlinked := by
    rw [job?_eq_entryAt, hj]
    rfl
  exact ⟨@Effect.noted s l op i j.unlinked j'.unlinked _ hop hidle hi hjob hps hstate hused
      (Only.of_put hj j'),
    h.listed.put hj j' hprev hused, by simp [hidle]⟩

theorem showjob_effect (h : s.Tidy l) (hstep : s.step? (.showjob jp) = some s') :
    ∃ l', Effect s l (.showjob jp) s' l' ∧ s'.Tidy l' := by
  rw [Sys.step?] at hstep
  split at hstep
  case isTrue hidle =>
    obtain ⟨j, hused, hstep⟩ := Option.bind_eq_some_iff.1 hstep
    obtain ⟨i, hi, rfl, hj, hjob⟩ := used?_spec h.listed hused
    by_cases hdone : j.state = .done
    · have hput := h.listed.put hj { j with changed := false } rfl rfl
      have hput' := Only.of_put hj { j with changed := false }
      obtain ⟨j₁, t', hj₁, -, hfree, honly, hlisted⟩ := freejob_only hput hi
      rw [hput'.job, Function.update_self] at hj₁
      obtain rfl := Option.some.inj hj₁
      dsimp only at hstep
      rw [if_pos hdone, show freejob (s.jobs.put (s.jobs.jobtab + i) { j with changed := false })
        (s.jobs.jobtab + i) = some t' from hfree] at hstep
      obtain rfl := Option.some.inj hstep
      refine ⟨_, .shown hidle hi hjob hdone ⟨?_, honly.jobtab.trans hput'.jobtab,
        honly.pipefail.trans hput'.pipefail⟩, hlisted, by simp [hidle]⟩
      rw [honly.job, hput'.job, Function.update_idem]
      rfl
    · dsimp only at hstep
      rw [if_neg hdone] at hstep
      obtain rfl := Option.some.inj hstep
      exact ⟨l, noted_effect _ h hidle ⟨_, .inr rfl⟩ hi hj rfl rfl rfl rfl⟩
  case isFalse => cases hstep

theorem settings_effect {op : Op} {b : Bool} (h : s.Tidy l) (hop : op.Settings)
    (hjob : t'.job? = s.jobs.job?) (htab : t'.jobtab = s.jobs.jobtab)
    (hlinks : t'.links = s.jobs.links) :
    Effect s l op { s with jobs := t', gotsigchld := b } l ∧
      Sys.Tidy { s with jobs := t', gotsigchld := b } l := by
  refine ⟨.settings hjob htab hop, ⟨?_, fun i => ?_⟩, fun f hf => ?_⟩
  · rw [htab, hlinks]
    exact h.listed.holds
  · rw [hjob]
    exact h.listed.used i
  · change ∃ i ∈ l, f.jp = t'.jobtab + i
    rw [htab]
    exact h.fg f hf

/-- What a step can do. -/
theorem step_effect {op : Op} (h : s.Tidy l) (hstep : s.step? op = some s') :
    ∃ l', Effect s l op s' l' ∧ s'.Tidy l' := by
  cases op with
  | makejob nprocs mode base =>
    rw [Sys.step?] at hstep
    split at hstep
    case isTrue hidle =>
      obtain ⟨i, t', hmake, hlisted, hmade⟩ := h.listed.makejob base
      rw [hmake] at hstep
      obtain rfl := Option.some.inj hstep
      refine ⟨_, .makejob hidle.1 hidle.2 hmade, hlisted, ?_⟩
      rintro f hf
      obtain rfl := Option.some.inj hf
      exact ⟨i, by simp, rfl⟩
    case isFalse => cases hstep
  | fork pid cmd => exact fork_effect h hstep
  | forkNoJob pid =>
    rw [Sys.step?] at hstep
    split at hstep
    case isTrue hpid =>
      obtain rfl := Option.some.inj hstep
      exact ⟨l, .forkNoJob hpid.1 hpid.2, h.listed, h.fg⟩
    case isFalse => cases hstep
  | pipeFailed =>
    rw [Sys.step?, Option.bind_eq_some_iff] at hstep
    obtain ⟨f, hfg, hstep⟩ := hstep
    split at hstep
    case isTrue => cases hstep
    case isFalse hleft =>
      obtain rfl := Option.some.inj hstep
      exact ⟨l, .pipeFailed hfg hleft, h.listed, by simp⟩
  | background =>
    rw [Sys.step?, Option.bind_eq_some_iff] at hstep
    obtain ⟨f, hfg, hstep⟩ := hstep
    split at hstep
    case isTrue hleft =>
      obtain rfl := Option.some.inj hstep
      exact ⟨l, .background hfg hleft.1 hleft.2, h.listed, by simp⟩
    case isFalse => cases hstep
  | waitone flag a =>
    rw [Sys.step?] at hstep
    split at hstep
    case isTrue hwaits =>
      obtain ⟨l', heff, hlisted, hfg, htab, hmem⟩ := waitone_effect h hwaits hstep
      refine ⟨l', heff, hlisted, fun f hf => ?_⟩
      rw [hfg] at hf
      obtain ⟨i, hi, hjp⟩ := h.fg f hf
      exact ⟨i, hmem i hi, by rw [htab, hjp]⟩
    case isFalse => cases hstep
  | waitforjob => exact waitforjob_effect h hstep
  | fg jp tty => exact fg_effect h hstep
  | bg jp => exact bg_effect h hstep
  | wait jp =>
    rw [Sys.step?] at hstep
    split at hstep
    case isTrue hidle =>
      obtain ⟨j, hused, rfl⟩ := Option.map_eq_some_iff.1 hstep
      obtain ⟨i, hi, rfl, hj, -⟩ := used?_spec h.listed hused
      exact ⟨l, noted_effect _ h hidle ⟨_, .inl rfl⟩ hi hj rfl rfl rfl rfl⟩
    case isFalse => cases hstep
  | showjob jp => exact showjob_effect h hstep
  | sigchld =>
    obtain rfl := Option.some.inj hstep
    exact ⟨l, settings_effect h trivial rfl rfl rfl⟩
  | setjobctl on =>
    rw [Sys.step?] at hstep
    split at hstep
    case isTrue =>
      obtain rfl := Option.some.inj hstep
      exact ⟨l, settings_effect h trivial rfl rfl rfl⟩
    case isFalse => cases hstep
  | setpipefail on =>
    rw [Sys.step?] at hstep
    split at hstep
    case isTrue =>
      obtain rfl := Option.some.inj hstep
      exact ⟨l, settings_effect h trivial rfl rfl rfl⟩
    case isFalse => cases hstep
  | stoppedjobs =>
    rw [Sys.step?] at hstep
    split at hstep
    case isTrue =>
      obtain rfl := Option.some.inj hstep
      refine ⟨l, settings_effect h trivial ?_ ?_ ?_⟩ <;> rw [stoppedjobs] <;>
        split <;> try split
      all_goals rfl
    case isFalse => cases hstep
  | cmdloop =>
    rw [Sys.step?] at hstep
    split at hstep
    case isTrue =>
      obtain rfl := Option.some.inj hstep
      exact ⟨l, settings_effect h trivial rfl rfl rfl⟩
    case isFalse => cases hstep
  | forkchild =>
    obtain ⟨t', hfree, hlisted⟩ := freeall_spec h.listed h.listed.length_lt_fuel
    rw [Sys.step?, hfree] at hstep
    obtain rfl := Option.some.inj hstep
    refine ⟨[], .forkchild fun i j hj => ?_, ⟨hlisted.holds, hlisted.used⟩, by simp⟩
    have hnot := mt (hlisted.used i).2 List.not_mem_nil
    simpa using fun hused => hnot ⟨j, hj, hused⟩

end Bootsh.Jobs
