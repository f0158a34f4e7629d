import Bootsh.Lib.Run
import Mathlib.Logic.Function.Basic
import Mathlib.Data.Int.Notation

/-!
Traps, from `trap.c`: signals that arrive, the loop of `dotrap` and the actions that it runs, and
the ways in which a shell ends. The evaluator may do anything between its calls of `dotrap`.
-/
namespace Bootsh.Trap

abbrev Text := List Char

def NSIG : ℕ := 65

def SIGCHLD : ℕ := 17

/-- The values of `evalskip`. -/
inductive Skip
  | none | skipbreak | skipcont | skipfunc | skipfuncdef
deriving DecidableEq

inductive Exception
  | exint | exerror | exend | exexit
deriving DecidableEq

/-- What is under way, innermost first. -/
inductive Frame
  /-- The loop of `dotrap`, about to look at the signal `i + 1`. Where an action is being run,
  `acting` is the status that it found. -/
  | dotrap (i : ℕ) (status last_status : ℤ) (acting : Option ℤ)
  /-- A builtin that survives errors in the commands it runs. -/
  | handler
  /-- The action of the trap for `EXIT`, and the status that it found. -/
  | exitshell (found : ℤ)
  /-- A child was forked in an action of its parent, which had found the status. -/
  | subshell (found : ℤ)
deriving DecidableEq

structure State where
  trap : ℕ → Option Text
  gotsig : ℕ → Bool
  pending_sig : ℕ
  evalskip : Skip
  exitstatus : ℤ
  savestatus : ℤ
  stack : List Frame
  /-- `iflag`, in a shell that is not a child of another. -/
  iflag : Bool
  /-- The status that the process has ended with. -/
  exited : Option ℤ

inductive Op
  | onsig (signo : ℕ)
  /-- The evaluator calls `dotrap`. -/
  | dotrap
  /-- A round of the loop in `dotrap`. -/
  | scan
  /-- The action that `dotrap` runs has come to its end. -/
  | endAction
  | command (status : ℕ)
  | skip (s : Skip)
  | trapcmd (signo : ℕ) (action : Option Text)
  /-- A builtin that survives errors starts to run commands. -/
  | enter
  | leave
  | sh_error
  | onint
  /-- `set -e`, the last command of a subshell, or a failed `exec`. -/
  | exend
  | exitcmd (n : Option ℕ)
  /-- The input has ended. -/
  | eof
  /-- The action for `EXIT` has come to its end. -/
  | endExit
  /-- The run goes on in a child. -/
  | forkchild
deriving DecidableEq

inductive Event
  | quiet
  /-- The action for a signal is started. -/
  | ran (signo : ℕ)
  /-- The mark of a signal without a trap is taken away. -/
  | dropped (signo : ℕ)
  /-- The action for `EXIT` is started. -/
  | exiting
deriving DecidableEq

/-- The frames that an exception leaves. -/
def unwind (e : Exception) : List Frame → List Frame
  | [] => []
  | .handler :: stack => if e = .exerror then .handler :: stack else unwind e stack
  | .exitshell found :: stack => .exitshell found :: stack
  | .subshell found :: stack => .subshell found :: stack
  | .dotrap _ _ _ _ :: stack => unwind e stack

/-- The status that the innermost action under way found. -/
def found : List Frame → Option ℤ
  | [] => none
  | .handler :: stack => found stack
  | .exitshell status :: _ => some status
  | .subshell status :: _ => some status
  | .dotrap _ status _ acting :: _ => some (acting.getD status)

namespace State

/-- The evaluator runs: the process has not ended, and `dotrap` is not between two actions. -/
def evaluates (s : State) : Bool :=
  s.exited.isNone && match s.stack with
    | .dotrap _ _ _ none :: _ => false
    | _ => true

/-! ### Exceptions -/

/-- The hook of `exitreset`. -/
def exitreset (s : State) (e : Option Exception) : State :=
  if 0 ≤ s.savestatus then
    { s with
      exitstatus :=
        if e = some .exexit ∨ s.evalskip = .skipfuncdef then s.savestatus else s.exitstatus
      savestatus := -1
      evalskip := .none }
  else { s with evalskip := .none }

def exit (s : State) : State := { s with stack := [], exited := some s.exitstatus }

/-- `exitshell`, from `main`. -/
def exitshell (s : State) : Event × State :=
  let s := { s with savestatus := s.exitstatus }
  match s.trap 0 with
  | some _ =>
    (.exiting, { s with
      trap := Function.update s.trap 0 none, evalskip := .none,
      stack := [.exitshell s.exitstatus] })
  | none => (.quiet, (s.exitreset none).exit)

def exraise (s : State) (e : Exception) : Event × State :=
  match unwind e s.stack with
  | .handler :: stack => (.quiet, { s with stack := stack })
  | .exitshell _ :: _ => (.quiet, (s.exitreset (some e)).exit)
  | _ =>
    let s := { s.exitreset (some e) with stack := [] }
    if e = .exend ∨ e = .exexit ∨ !s.iflag then s.exitshell else (.quiet, s)

/-! ### Signals -/

def onsig (s : State) (signo : ℕ) : State :=
  if signo = SIGCHLD ∧ s.trap SIGCHLD = none then s
  else { s with gotsig := Function.update s.gotsig signo true, pending_sig := signo }

/-- `dotrap` up to its loop. -/
def dotrap (s : State) : State :=
  if s.pending_sig = 0 then s
  else
    let last_status := s.savestatus
    let status := if last_status < 0 then s.exitstatus else last_status
    { s with
      savestatus := status, pending_sig := 0,
      stack := .dotrap 0 status last_status none :: s.stack }

/-- One round of the loop. -/
def scan (s : State) (i : ℕ) (status last_status : ℤ) (stack : List Frame) : Event × State :=
  let go := fun acting => Frame.dotrap (i + 1) status last_status acting :: stack
  if NSIG - 1 ≤ i then (.quiet, { s with savestatus := last_status, stack := stack })
  else if ¬ s.gotsig (i + 1) then (.quiet, { s with stack := go none })
  else if s.evalskip ≠ .none then
    (.quiet, { s with pending_sig := i + 1, savestatus := last_status, stack := stack })
  else
    let gotsig := Function.update s.gotsig (i + 1) false
    match s.trap (i + 1) with
    | none => (.dropped (i + 1), { s with gotsig := gotsig, stack := go none })
    | some _ => (.ran (i + 1), { s with gotsig := gotsig, stack := go (some s.exitstatus) })

/-! ### Steps -/

def step? (s : State) : Op → Option (Event × State)
  | .onsig signo =>
    if s.exited = none ∧ 0 < signo ∧ signo < NSIG then some (.quiet, s.onsig signo) else none
  | .dotrap => if s.evaluates then some (.quiet, s.dotrap) else none
  | .scan =>
    match s.stack with
    | .dotrap i status last_status none :: stack =>
      if s.exited = none then some (s.scan i status last_status stack) else none
    | _ => none
  | .endAction =>
    match s.stack with
    | .dotrap i status last_status (some _) :: stack =>
      if s.exited = none then
        some (.quiet, { s with
          exitstatus := if s.evalskip = .skipfunc then s.exitstatus else status
          stack := .dotrap i status last_status none :: stack })
      else none
    | _ => none
  | .command status =>
    if s.evaluates then some (.quiet, { s with exitstatus := status }) else none
  | .skip skip => if s.evaluates then some (.quiet, { s with evalskip := skip }) else none
  | .trapcmd signo action =>
    if s.evaluates ∧ signo < NSIG then
      some (.quiet, { s with trap := Function.update s.trap signo action })
    else none
  | .enter => if s.evaluates then some (.quiet, { s with stack := .handler :: s.stack }) else none
  | .leave =>
    match s.stack with
    | .handler :: stack =>
      if s.exited = none then some (.quiet, { s with stack := stack }) else none
    | _ => none
  | .sh_error =>
    if s.evaluates then some ({ s with exitstatus := 2 }.exraise .exerror) else none
  | .onint =>
    if s.evaluates ∧ s.iflag then some ({ s with exitstatus := 130 }.exraise .exint) else none
  | .exend => if s.evaluates then some (s.exraise .exend) else none
  | .exitcmd n =>
    if s.evaluates then
      some ({ s with savestatus := (n.map Int.ofNat).getD s.savestatus }.exraise .exexit)
    else none
  | .eof => if s.exited = none ∧ s.stack = [] then some s.exitshell else none
  | .endExit =>
    match s.stack with
    | [.exitshell _] =>
      if s.exited = none then
        some (.quiet, ({ s with evalskip := .skipfuncdef }.exitreset none).exit)
      else none
    | _ => none
  | .forkchild =>
    if s.evaluates then
      some (.quiet, { s with
        trap := fun k => (s.trap k).filter (· = [])
        stack := (found s.stack).toList.map .subshell
        iflag := false })
    else none

/-- A step that cannot be made leaves the state as it is. -/
def step (s : State) (op : Op) : Event × State := (s.step? op).getD (.quiet, s)

end State

/-- A shell without traps. -/
def initState : State where
  trap := fun _ => none
  gotsig := fun _ => false
  pending_sig := 0
  evalskip := .none
  exitstatus := 0
  savestatus := -1
  stack := []
  iflag := false
  exited := none

end Bootsh.Trap
