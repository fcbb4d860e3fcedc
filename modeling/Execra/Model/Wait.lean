import Execra.Model.Driver

/-!
The wait task (`wait::spawn_wait_task`), one program point per await and per
effect. It watches the child, the cancellation token and the timeout, acts on
the process group, and hands its `WaitOutcome` to the driver as its last act.
Neither `select!` of the task is biased: of the branches that are ready any
one may be taken.
-/

namespace Execra

/-- The branch by which the task left its first `select!`. -/
inductive WaitBranch where
  | exited | cancelled | timedOut
deriving DecidableEq, Repr

inductive WaitPc where
  /-- `spawn_wait_task` has not been called yet. -/
  | unspawned
  /-- Spawned, not polled yet: its timers are not armed. -/
  | spawned
  /-- In the `select!` over the child, the token and the timeout. -/
  | select
  /-- Taking the time for `Event::Cancelled`. -/
  | cancelStamp
  /-- `emit`, first half: broadcast. -/
  | cancelSend (time : SystemTime)
  /-- `emit`, second half: insert. -/
  | cancelInsert (time : SystemTime)
  /-- `terminate_child`. -/
  | terminate
  /-- In the `select!` of `terminate_with_grace`. -/
  | grace (deadline : Instant)
  /-- `kill_child`, when the grace period or the timeout is over. -/
  | kill (branch : WaitBranch)
  /-- `child.wait().await` after `kill_child`. -/
  | reap (branch : WaitBranch)
  /-- `exit_tx.send(outcome)`. -/
  | deliver (outcome : WaitOutcome) (branch : WaitBranch)
  | finished (branch : WaitBranch)

/-- `startedAt` is the instant the task was first polled, when
`sleep(timeout)` starts to count. -/
structure WaitTask where
  pc : WaitPc := .unspawned
  startedAt : Option Instant := none
  procGroup : Option ProcessGroup := none

/-- Which branch of a `select!` the task takes; `go` where it has no choice. -/
inductive WaitChoice where
  | go | child | cancel | timer
deriving DecidableEq, Repr

/-- Whether a timer armed at `start` for `period` has run out. -/
def timerElapsed (start : Option Instant) (period : Option Duration) (instant : Instant) :
    Bool :=
  match start, period with
  | some t, some d => t + d ≤ instant
  | _, _ => false

end Execra
