import Bootsh.Jobs.Listed

/-!
The operations on jobs: new processes, the reports of `wait3`, and jobs that are continued. The
system is the shell with the processes that it has not yet reaped.
-/
namespace Bootsh.Jobs

inductive ForkMode
  | fg | bg | noJob
deriving DecidableEq

/-- The job that the evaluator is making or waiting for, with the number of its processes that
are still to be forked. -/
structure Foreground where
  jp : ℕ
  left : ℕ
  mode : ForkMode
deriving DecidableEq

structure Sys where
  jobs : Jobs
  /-- The children that have not been reaped. -/
  kids : List Int
  gotsigchld : Bool
  fg : Option Foreground
deriving DecidableEq

/-! ### Processes -/

/-- `nprocs` has sixteen bits. -/
def addProc (ps : List Procstat) (p : Procstat) : List Procstat :=
  if ps.length + 1 < 2 ^ 16 then ps ++ [p] else []

/-- A process that has just been forked. -/
def forked (t : Jobs) (pid : Int) (cmd : List Char) : Procstat :=
  { pid := pid, status := -1, cmd := if t.jobctl then cmd else [] }

/-- A background job is put after the stopped jobs. -/
def background (t : Jobs) (jp : ℕ) (mode : ForkMode) (pid : Int) : Option Jobs :=
  if mode = .bg then ({ t with backgndpid := pid } : Jobs).set_curjob jp .running else some t

/-- The parent's side of a fork that has worked. -/
def forkparent (t : Jobs) (jp : ℕ) (mode : ForkMode) (pid : Int) (cmd : List Char) :
    Option Jobs :=
  (t.background jp mode pid).bind fun t =>
    (t.entryAt jp).map fun j => t.put jp { j with ps := addProc j.ps (t.forked pid cmd) }

/-- The child gives up the jobs of its parent. -/
def freeall (t : Jobs) : ℕ → Option ℕ → Option Jobs
  | 0, _ => none
  | _ + 1, none => some t
  | fuel + 1, some jp =>
    (t.freejob jp).bind fun t => (t.entryAt jp).bind fun j => t.freeall fuel j.prev_job

/-! ### Reports -/

inductive Block
  | nonblock | block | waitcmd | waitcmdAll
deriving DecidableEq

/-- What `waitproc` returns, and whether `SIGCHLD` comes after it. -/
structure Answer where
  pid : Int
  status : Int
  sigchld : Bool
deriving DecidableEq

/-- The answers that there can be. A stopped child is only reported under job control, nothing is
only reported where the call does not block, and the call fails where there are no children. -/
def Sys.Answers (s : Sys) (flag : Block) (a : Answer) : Prop :=
  if 0 < a.pid then
    a.pid ∈ s.kids ∧ 0 ≤ a.status ∧ (WIFSTOPPED a.status → s.jobs.jobctl)
  else if a.pid = 0 then flag = .waitcmd ∨ flag = .waitcmdAll
  else a.pid = -1 ∧ (s.kids = [] ∨ flag = .nonblock)

instance (s : Sys) (flag : Block) (a : Answer) : Decidable (s.Answers flag a) := by
  unfold Sys.Answers
  infer_instance

/-- The children after an answer: the one that has ended is reaped. -/
def Sys.reap (s : Sys) (a : Answer) : List Int :=
  if 0 < a.pid ∧ ¬ WIFSTOPPED a.status then s.kids.filter (· ≠ a.pid) else s.kids

def setStatus (pid status : Int) (ps : List Procstat) : List Procstat :=
  ps.map fun p => if p.pid = pid then { p with status := status } else p

/-- The state that the scan of the processes computes, from `state` on. -/
def scanState (state : JobState) : List Procstat → JobState
  | [] => state
  | p :: ps =>
    let state := if p.status = -1 then .running else state
    scanState (if state = .running then .running
      else if WIFSTOPPED p.status then .stopped else state) ps

/-- The loop over the jobs: the first that is not done and has the process gets the status. -/
def report (t : Jobs) (pid status : Int) :
    ℕ → Option ℕ → Option (Jobs × Option (ℕ × JobState))
  | 0, _ => none
  | _ + 1, none => some (t, none)
  | fuel + 1, some jp =>
    (t.entryAt jp).bind fun j =>
      if j.state ≠ .done ∧ pid ∈ j.ps.map (·.pid) then
        let ps := setStatus pid status j.ps
        some (t.put jp { j with ps := ps }, some (jp, scanState .done ps))
      else t.report pid status fuel j.prev_job

/-- The state of a job that has got a report is recorded, unless it is running. -/
def gotjob (t : Jobs) (jp : ℕ) (state : JobState) : Option Jobs :=
  (t.entryAt jp).bind fun j =>
    if state = .running then some t
    else if j.state = state then some (t.put jp { j with changed := true })
    else
      let t := t.put jp { j with changed := true, state := state }
      if state = .stopped then t.set_curjob jp .stopped else some t

def Sys.waitone (s : Sys) (flag : Block) (a : Answer) : Option Sys :=
  if s.Answers flag a then
    let s' := { s with kids := s.reap a, gotsigchld := a.sigchld }
    if a.pid ≤ 0 then some s'
    else
      (s.jobs.report a.pid a.status s.jobs.fuel s.jobs.curjob).bind fun (t, found) =>
        match found with
        | none => some { s' with jobs := t }
        | some (jp, state) => (t.gotjob jp state).map fun t => { s' with jobs := t }
  else none

/-- Is the job at an address, if any, running? -/
def Sys.Running (s : Sys) (jp : Option ℕ) : Prop :=
  ∀ p ∈ jp, (s.jobs.entryAt p).any (·.state = .running)

instance (s : Sys) (jp : Option ℕ) : Decidable (s.Running jp) := by
  unfold Sys.Running
  infer_instance

/-- The loop of `dowait`. There is no result when it has not ended with the answers. -/
def Sys.dowaitLoop (jp : Option ℕ) : Sys → Block → Bool → List Answer →
    Option (Bool × List Answer × Sys)
  | _, _, _, [] => none
  | s, flag, rpid, a :: as =>
    (s.waitone flag a).bind fun s =>
      let rpid := rpid && a.pid ≠ 0
      let flag := if flag = .waitcmdAll then .nonblock else flag
      let flag := if a.pid = 0 ∨ ¬ s.Running jp then .nonblock else flag
      if 0 ≤ a.pid then dowaitLoop jp s flag rpid as else some (rpid, as, s)

def Sys.dowait (s : Sys) (flag : Block) (jp : Option ℕ) (as : List Answer) :
    Option (Bool × List Answer × Sys) :=
  let flag := if s.Running jp then flag else .nonblock
  if flag = .nonblock ∧ !s.gotsigchld then some (true, as, s)
  else s.dowaitLoop jp flag true as

/-- The status that decides: that of the last process, or with `pipefail` that of the last one
whose status is not zero. -/
def lastStatus (pipefail : Bool) : List Procstat → Int
  | [] => 0
  | [p] => p.status
  | p :: q :: ps => if pipefail && p.status = 0 then lastStatus pipefail (q :: ps) else p.status

def exitStatus (status : Int) : Int :=
  if WIFEXITED status then WEXITSTATUS status
  else (if WIFSTOPPED status then WSTOPSIG status else WTERMSIG status) + 128

/-- The processes are walked from the last one on. -/
def getstatus (pipefail : Bool) (j : Job) : Int := exitStatus (lastStatus pipefail j.ps.reverse)

/-- What `waitforjob` does after `dowait`. -/
def waitedfor (t : Jobs) (jp : ℕ) : Option (Int × Jobs) :=
  (t.entryAt jp).bind fun j =>
    (if j.state = .done then t.freejob jp else some t).map fun t' => (getstatus t.pipefail j, t')

def Sys.waitforjob (s : Sys) (jp : ℕ) (as : List Answer) : Option (Int × List Answer × Sys) := do
  let (_, as, s) ← s.dowait .block (some jp) as
  let (st, t) ← s.jobs.waitedfor jp
  return (st, as, { s with jobs := t })

/-! ### Continued jobs -/

/-- `restartjob` before it waits. `tty` says whether `tcsetpgrp` works; where it does not, the
error leaves the function and there is no second component. -/
def resume (t : Jobs) (jp : ℕ) (mode : ForkMode) (tty : Bool) : Option (Jobs × Bool) :=
  (t.entryAt jp).map fun j =>
    if j.state = .done then (t, true)
    else
      let j := { j with state := .running }
      if mode = .fg ∧ !tty then (t.put jp j, false)
      else
        let ps := j.ps.map fun p => if WIFSTOPPED p.status then { p with status := -1 } else p
        (t.put jp { j with ps := ps }, true)

/-! ### Stopped jobs -/

def stoppedjobs (t : Jobs) : Bool × Jobs :=
  if t.job_warning ≠ 0 then (false, t)
  else if t.curjob.any t.isStopped then (true, { t with job_warning := 2 })
  else (false, t)

end Bootsh.Jobs
