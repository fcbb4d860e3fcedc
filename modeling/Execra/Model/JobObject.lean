import Execra.Model.Machine

/-!
The child's processes on Windows (the other half of `proc_group.rs`). The child is attached
to a Job Object after it was spawned, when it may already have started processes of its own:
these are not in the Job Object, and neither is what they start. What an attached process
starts is. To terminate the Job Object, or to close its handle once KILL_ON_JOB_CLOSE was
set, ends all that are in it at that moment: such a process does nothing more but exit.

The job is else the same as on Unix. Its state is kept in a `Sys`; the `group` in there, and
the process group that the driver passes to the wait task, are of Unix, and nothing here
reads them.
-/

namespace Execra

structure TreeProcess where
  attached : Bool := false
  terminated : Bool := false
  exited : Bool := false
deriving DecidableEq, Repr

def TreeProcess.terminate (p : TreeProcess) : TreeProcess :=
  if p.exited then p else { p with terminated := true }

/-- A call that takes the handle of the Job Object, or returns it. -/
inductive HandleCall where
  | createJobObject | setInformation | assignProcess | terminateJobObject | closeHandle
deriving DecidableEq, Repr

/-- Where `ProcessGroup::assign` stands: the calls it makes, in their order, the one it
makes when any but the first has failed, and its return. -/
inductive AssignPc where
  | uncalled
  | createJobObject
  | setInformation
  | rawHandle
  | assignProcess
  | closeHandle
  | returned
deriving DecidableEq, Repr

/-- The child (`leader`), what was started by it or by others of the tree, and the Job
Object. `held` says that there is a `ProcessGroup`, `dropped` that the wait task has dropped
it and the child. The last two fields record history and are not read: the calls on the
handle, and whether a process was started before `assign` had returned. -/
structure JobTree where
  leader : TreeProcess := {}
  descendants : List TreeProcess := []
  waitStatus : Option (Except IoError ExitStatus) := none
  assign : AssignPc := .uncalled
  killOnClose : Bool := false
  held : Bool := false
  dropped : Bool := false
  handleCalls : List HandleCall := []
  startedEarly : Bool := false

def JobTree.members (t : JobTree) : List TreeProcess := t.leader :: t.descendants

/-- What becomes of the processes of the Job Object when it is terminated. -/
def JobTree.endAttached (t : JobTree) : JobTree :=
  let endIt (p : TreeProcess) := if p.attached then p.terminate else p
  { t with leader := endIt t.leader, descendants := t.descendants.map endIt }

def JobTree.call (t : JobTree) (call : HandleCall) : JobTree :=
  { t with handleCalls := t.handleCalls ++ [call] }

/-- `TerminateJobObject(self.job, 1)`. -/
def JobTree.terminateJobObject (t : JobTree) : JobTree :=
  t.endAttached.call .terminateJobObject

/-- `CloseHandle(job)`, for the only handle there is. -/
def JobTree.closeHandle (t : JobTree) : JobTree :=
  (if t.killOnClose then t.endAttached else t).call .closeHandle

/-- `child.start_kill()`. -/
def JobTree.startKill (t : JobTree) : JobTree := { t with leader := t.leader.terminate }

/-- `ProcessGroup::assign` makes its next call, which succeeds if `ok`. -/
def JobTree.assignStep (t : JobTree) (ok : Bool) : Option JobTree :=
  match t.assign with
  | .createJobObject =>
      if ok then some { t.call .createJobObject with assign := .setInformation }
      else some { t with assign := .returned }
  | .setInformation =>
      if ok then
        some { t.call .setInformation with killOnClose := true, assign := .rawHandle }
      else some { t.call .setInformation with assign := .closeHandle }
  | .rawHandle =>
      if ok then some { t with assign := .assignProcess }
      else some { t with assign := .closeHandle }
  | .assignProcess =>
      if ok then
        some { t.call .assignProcess with
          leader := { t.leader with attached := true }
          held := true
          assign := .returned }
      else some { t.call .assignProcess with assign := .closeHandle }
  | .closeHandle => some { t.closeHandle with assign := .returned }
  | .uncalled | .returned => none

/-- `ProcessGroup::terminate` is `ProcessGroup::kill`, so this is `wait::terminate_child`
as well as `wait::kill_child`. -/
def JobTree.killChild (t : JobTree) : JobTree :=
  if t.held then t.terminateJobObject else t.startKill

/-- `drop(proc_group)`. -/
def JobTree.dropGroup (t : JobTree) : JobTree :=
  if t.held then { t.closeHandle with held := false } else t

/-- The child is dropped: it is killed if it was not reaped (`kill_on_drop`). -/
def JobTree.dropChild (t : JobTree) : JobTree :=
  match t.waitStatus with
  | some (.ok _) => t
  | _ => t.startKill

/-- The end of the wait task. -/
def JobTree.dropAll (t : JobTree) : JobTree := { t.dropGroup.dropChild with dropped := true }

/-- Member `i` (the child is 0) exits. The first time `child.wait()` becomes ready with the
code of the child. -/
def JobTree.exit (t : JobTree) : Nat → Int32 → Option JobTree
  | 0, code =>
      if t.leader.exited then none
      else
        let status := t.waitStatus.getD (.ok (.exited code))
        some { t with leader := { t.leader with exited := true }, waitStatus := some status }
  | i + 1, _ =>
      match t.descendants[i]? with
      | some p =>
          if p.exited then none
          else some { t with descendants := t.descendants.set i { p with exited := true } }
      | none => none

/-- `child.wait()` becomes ready with an error. -/
def JobTree.failWait (t : JobTree) (error : IoError) : Option JobTree :=
  if t.waitStatus.isNone then some { t with waitStatus := some (.error error) } else none

/-- Member `i` starts a process, which is in the Job Object if `i` is. -/
def JobTree.start (t : JobTree) (i : Nat) : Option JobTree :=
  match t.members[i]? with
  | some p =>
      if p.exited || p.terminated then none
      else some { t with
        descendants := t.descendants ++ [{ attached := p.attached }]
        startedEarly := t.startedEarly || t.assign ≠ .returned }
  | none => none

/-- A job on Windows. -/
structure WindowsSys where
  sys : Sys
  tree : JobTree := {}

/-- A step of the driver. The call of `assign` follows the one of `spawn` with no await
between them, so the driver does nothing else until it has returned. -/
def WindowsSys.driverStep (cfg : Config) (w : Oracle) (s : WindowsSys) : Option WindowsSys :=
  match s.tree.assign with
  | .uncalled =>
      (s.sys.driverStep cfg w).map (fun sys =>
        { sys, tree :=
          if sys.child.isSome then { s.tree with assign := .createJobObject } else s.tree })
  | .returned => (s.sys.driverStep cfg w).map (fun sys => { s with sys })
  | _ => none

/-- The wait task moves. Where it acts on the child, or asks for its status, it does so on
the processes of `tree`. -/
def WindowsSys.waitStep (cfg : Config) (w : Oracle) (s : WindowsSys) :
    WaitChoice → Option WindowsSys
  | .go =>
      match s.sys.wait.pc with
      | .terminate =>
          some
            { sys := s.sys.waitAt (.grace (s.sys.instant + cfg.runtime.defaultGracePeriod))
              tree := s.tree.killChild }
      | .kill branch =>
          some { sys := s.sys.waitAt (.reap branch), tree := s.tree.killChild }
      | .reap branch =>
          s.tree.waitStatus.map (fun status =>
            { s with
              sys := s.sys.waitAt (.deliver { status, timedOut := branch = .timedOut } branch) })
      | .finished _ =>
          if s.tree.dropped then none else some { s with tree := s.tree.dropAll }
      | _ => (s.sys.waitStep cfg w .go).map (fun sys => { s with sys })
  | .child =>
      match s.sys.wait.pc with
      | .select =>
          s.tree.waitStatus.map (fun status =>
            { s with sys := s.sys.waitAt (.deliver { status, timedOut := false } .exited) })
      | .grace _ =>
          s.tree.waitStatus.map (fun status =>
            { s with sys := s.sys.waitAt (.deliver { status, timedOut := false } .cancelled) })
      | _ => none
  | choice => (s.sys.waitStep cfg w choice).map (fun sys => { s with sys })

inductive WindowsLabel where
  | driver (w : Oracle)
  /-- The next call of `assign`, and whether it succeeds. -/
  | assign (ok : Bool)
  | wait (choice : WaitChoice) (w : Oracle)
  /-- A step of neither task nor of a process. -/
  | aside (l : Label)
  | exit (i : Nat) (code : Int32)
  | failWait (error : IoError)
  | start (i : Nat)

def Label.isAside : Label → Bool
  | .cancelCheck | .cancelToken | .pollHandle | .arrive _ _ | .close _ _ | .elapse _ => true
  | _ => false

def WindowsSys.step (cfg : Config) (s : WindowsSys) : WindowsLabel → Option WindowsSys
  | .driver w => s.driverStep cfg w
  | .assign ok => (s.tree.assignStep ok).map (fun tree => { s with tree })
  | .wait choice w => s.waitStep cfg w choice
  | .aside l =>
      if l.isAside then (s.sys.step cfg l).map (fun sys => { s with sys }) else none
  | .exit i code =>
      if s.sys.child.isSome then (s.tree.exit i code).map (fun tree => { s with tree })
      else none
  | .failWait error =>
      if s.sys.child.isSome then (s.tree.failWait error).map (fun tree => { s with tree })
      else none
  | .start i =>
      if s.sys.child.isSome then (s.tree.start i).map (fun tree => { s with tree })
      else none

def WindowsSys.init (cfg : Config) : WindowsSys := { sys := Sys.init cfg }

end Execra
