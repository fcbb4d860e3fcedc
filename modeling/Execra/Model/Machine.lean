import Execra.Foundation.Transition
import Execra.Model.Wait

/-!
One job of the runtime as a transition system: the driver, the wait task, the
callers of `cancel`, the job handle, the child's pipes and process group, and
the clocks. A label says which of them moves and what the world answers if it
is asked; every interleaving of the tasks is a schedule of labels.

Reads and writes of the snapshot, the token, the store and the channels are
atomic steps of their own, so whatever another task can observe between two
of them is a state of this system.
-/

namespace Execra

/-- A `oneshot` channel: `taken` once the value that was sent has been
received. -/
inductive Oneshot (α : Type) where
  | empty | sent (value : α) | taken (value : α)

def Oneshot.value {α : Type} : Oneshot α → Option α
  | .empty => none
  | .sent value | .taken value => some value

/-- Where the driver stands: inside a program, or at the head of the loop. -/
inductive Ctl where
  | run (p : Driver Next)
  | top (vars : LoopVars)
  | returned

/-- What the world answers in a step of the driver or the wait task. Only the
entries the step asks for are used. `upsertOk` is the call of `upsert_job`,
`insertOk` and `findingOk` are the two statements of `insert_event`. -/
structure Oracle where
  time : SystemTime := 0
  spawned : Except IoError Nat := .ok 1
  interp : InterpreterReply := .ok []
  rawOpens : Bool := true
  upsertOk : Bool := true
  insertOk : Bool := true
  findingOk : Bool := true
  /-- What the driver reads off the monotonic clock and off the token. In the
  job these two are not the world's to choose. -/
  instant : Instant := 0
  token : Bool := false

instance : Inhabited Oracle := ⟨{}⟩

/-- The state of one job. `log` is what was broadcast for it, in sending
order, `child` the id of its process once there is one, `rawLog` the content
of its log file once that is created, `handleYields` what the handle has
resolved with. The last seven fields record history and
are read by no task: the events the driver itself has sent, whether the process
could not be spawned, the process groups of the wait tasks spawned so far, the
results of the select loop so far, what the driver read off the token, how many
`cancel` calls have returned after cancelling it, and whether every upsert so
far has succeeded. -/
structure Sys where
  ctl : Ctl
  wait : WaitTask := {}
  snapshot : Job
  token : Bool := false
  log : List Event := []
  store : Option Store := none
  rawOpen : Bool := false
  rawLog : Option String := none
  memoryRaw : JobId → List String := fun _ => []
  child : Option Nat := none
  stdout : Pipe := {}
  stderr : Pipe := {}
  group : Group := {}
  exitRx : Oneshot WaitOutcome := .empty
  outcomeRx : Oneshot Outcome := .empty
  handleYields : Option Outcome := none
  instant : Instant := 0
  phasesMade : Nat := 0
  callers : Nat := 0
  sent : List Event := []
  spawnFailed : Bool := false
  waitTasks : List (Option ProcessGroup) := []
  selected : List SelectResult := []
  verdict : Option Bool := none
  accepted : Nat := 0
  upsertsOk : Bool := true

def memoryRawCapacity : Nat := 1024

/-- `while lines.len() > MEMORY_RAW_CAPACITY { lines.pop_front(); }` -/
def evict : List String → List String
  | [] => []
  | line :: lines =>
      if (line :: lines).length > memoryRawCapacity then evict lines else line :: lines

/-- `driver::emit`, first half. -/
def Sys.send (s : Sys) (event : Event) : Sys := { s with log := s.log ++ [event] }

/-- `driver::emit`, second half. -/
def Sys.insertEvent (s : Sys) (event : Event) (w : Oracle) : Sys :=
  let insert (store : Store) := (store.insertEvent event w.insertOk w.findingOk).1
  { s with store := s.store.map insert }

/-- `persist_snapshot`. -/
def Sys.upsertSnapshot (s : Sys) (w : Oracle) : Sys :=
  match s.store with
  | none => s
  | some store =>
      if w.upsertOk then { s with store := some (store.upsertJob s.snapshot) }
      else { s with upsertsOk := false }

/-- One operation of the driver. The semaphore is never closed, so a permit is
acquired whenever the scheduler lets the driver take this step. -/
def Sys.act (cfg : Config) (w : Oracle) : (o : Op) → Sys → o.Ans × Sys
  | .acquirePermit, s => (true, s)
  | .instant, s => (s.instant, s)
  | .now, s => (w.time, s)
  | .newPhaseId, s => (cfg.phaseIds s.phasesMade, { s with phasesMade := s.phasesMade + 1 })
  | .openRawFile, s =>
      ((), if w.rawOpens then { s with rawOpen := true, rawLog := some "" } else s)
  | .spawnChild, s =>
      (w.spawned, match w.spawned with
        | .ok pid => { s with child := some pid }
        | .error _ => { s with spawnFailed := true })
  | .send event, s => ((), { s.send event with sent := s.sent ++ [event] })
  | .insertEvent event, s => ((), s.insertEvent event w)
  | .updateSnapshot u, s => ((), { s with snapshot := u.apply s.snapshot })
  | .upsertSnapshot, s => ((), s.upsertSnapshot w)
  | .writeRaw text, s =>
      ((), if s.rawOpen then { s with rawLog := s.rawLog.map (· ++ text) } else s)
  | .pushMemoryRaw line, s =>
      let lines := evict (s.memoryRaw cfg.id ++ [line])
      ((), { s with memoryRaw := Function.update s.memoryRaw cfg.id lines })
  | .finalizeRawLog, s => ((), { s with rawOpen := false })
  | .spawnWaitTask procGroup, s =>
      ((), { s with
        wait := { pc := .spawned, procGroup }
        waitTasks := s.waitTasks ++ [procGroup] })
  | .onLine _ _, s => (w.interp, s)
  | .onExit _ _, s => (w.interp, s)
  | .isCancelled, s => (s.token, { s with verdict := some s.token })
  | .reply outcome, s => ((), { s with outcomeRx := .sent outcome })

/-- The driver goes on after a program has handed over. -/
def settle : Driver Next → Ctl
  | .ret (.loop vars) => .top vars
  | .ret .returned => .returned
  | p => .run p

/-- `drive_job` after the loop, as a program that leaves it. -/
def exitLoop (cfg : Config) (v : LoopVars) : Driver Next := do
  finishJob cfg v
  return .returned

/-- A branch of the select loop has completed: the futures of all branches are
dropped, and the body of that branch runs. -/
def Sys.selectDone (cfg : Config) (v : LoopVars) (r : SelectResult) (s : Sys) : Sys :=
  { s with
    ctl := settle (loopTurn cfg v r)
    stdout := s.stdout.dropFuture
    stderr := s.stderr.dropFuture
    selected := s.selected ++ [r] }

/-- One poll of the `select!` (biased): stdout, then stderr, then the exit
channel, each only while it is not done. -/
def Sys.pollExit (cfg : Config) (v : LoopVars) (s : Sys) : Sys :=
  if v.childExited then s
  else match s.exitRx with
    | .sent outcome =>
        { s with exitRx := .taken outcome }.selectDone cfg v (.exit (some outcome))
    | _ => s

def Sys.pollStderr (cfg : Config) (v : LoopVars) (s : Sys) : Sys :=
  if v.stderrDone then s.pollExit cfg v
  else
    let (r, pipe) := s.stderr.nextLine
    match r with
    | some result => { s with stderr := pipe }.selectDone cfg v (.line .stderr result)
    | none => { s with stderr := pipe }.pollExit cfg v

def Sys.pollStdout (cfg : Config) (v : LoopVars) (s : Sys) : Sys :=
  if v.stdoutDone then s.pollStderr cfg v
  else
    let (r, pipe) := s.stdout.nextLine
    match r with
    | some result => { s with stdout := pipe }.selectDone cfg v (.line .stdout result)
    | none => { s with stdout := pipe }.pollStderr cfg v

/-- The driver moves: one operation of its program, or at the head of the loop
the test of the `while` and, inside the loop, one poll of the `select!`. -/
def Sys.driverStep (cfg : Config) (w : Oracle) (s : Sys) : Option Sys :=
  match s.ctl with
  | .run (.op o k) =>
      let (a, s') := s.act cfg w o
      some { s' with ctl := settle (k a) }
  | .run (.ret _) => none
  | .top v =>
      if v.ended then some { s with ctl := settle (exitLoop cfg v) }
      else some (s.pollStdout cfg v)
  | .returned => none

def Sys.waitAt (s : Sys) (pc : WaitPc) : Sys := { s with wait := { s.wait with pc } }

def cancelledEvent (cfg : Config) (time : SystemTime) : Event :=
  { job := cfg.id, body := .cancelled, time }

/-- The wait task moves. -/
def Sys.waitStep (cfg : Config) (w : Oracle) (s : Sys) : WaitChoice → Option Sys
  | .go =>
      match s.wait.pc with
      | .spawned =>
          some { s with wait := { s.wait with pc := .select, startedAt := some s.instant } }
      | .cancelStamp =>
          some (s.waitAt (.cancelSend w.time))
      | .cancelSend time =>
          some ((s.send (cancelledEvent cfg time)).waitAt (.cancelInsert time))
      | .cancelInsert time =>
          some ((s.insertEvent (cancelledEvent cfg time) w).waitAt .terminate)
      | .terminate =>
          some ({ s with group := terminateChild s.group s.wait.procGroup }.waitAt
            (.grace (s.instant + cfg.runtime.defaultGracePeriod)))
      | .kill branch =>
          some ({ s with group := killChild s.group s.wait.procGroup }.waitAt (.reap branch))
      | .reap branch =>
          s.group.waitStatus.map (fun status =>
            s.waitAt (.deliver { status, timedOut := branch = .timedOut } branch))
      | .deliver outcome branch =>
          some ({ s with exitRx := .sent outcome }.waitAt (.finished branch))
      | _ => none
  | .child =>
      match s.wait.pc with
      | .select =>
          s.group.waitStatus.map (fun status =>
            s.waitAt (.deliver { status, timedOut := false } .exited))
      | .grace _ =>
          s.group.waitStatus.map (fun status =>
            s.waitAt (.deliver { status, timedOut := false } .cancelled))
      | _ => none
  | .cancel =>
      match s.wait.pc with
      | .select => if s.token then some (s.waitAt .cancelStamp) else none
      | _ => none
  | .timer =>
      match s.wait.pc with
      | .select =>
          if timerElapsed s.wait.startedAt cfg.spec.timeout s.instant then
            some (s.waitAt (.kill .timedOut))
          else none
      | .grace deadline =>
          if deadline ≤ s.instant then some (s.waitAt (.kill .cancelled)) else none
      | _ => none

inductive Label where
  | driver (w : Oracle)
  | wait (choice : WaitChoice) (w : Oracle)
  /-- `cancel`, first half: the call reads the state of the snapshot. -/
  | cancelCheck
  /-- `cancel`, second half: the call cancels the token and returns `Ok`. -/
  | cancelToken
  /-- The handle is polled. -/
  | pollHandle
  | arrive (stream : Stream) (bytes : List UInt8)
  | close (stream : Stream) (how : PipeEnd)
  | exitLeader (cause : ExitCause) (status : ExitStatus)
  | failWait (error : IoError)
  | exitDescendant (i : Nat) (cause : ExitCause)
  | fork (parent : Nat) (ignoresTerm : Bool)
  | elapse (d : Duration)

def Sys.pipe (s : Sys) : Stream → Pipe
  | .stdout => s.stdout
  | .stderr => s.stderr

def Sys.setPipe (s : Sys) (stream : Stream) (p : Pipe) : Sys :=
  match stream with
  | .stdout => { s with stdout := p }
  | .stderr => { s with stderr := p }

@[simp] theorem Sys.pipe_setPipe (s : Sys) (stream : Stream) (p : Pipe) :
    (s.setPipe stream p).pipe stream = p := by
  cases stream <;> rfl

theorem Sys.pipe_setPipe_of_ne (s : Sys) {stream stream' : Stream} (p : Pipe)
    (h : stream ≠ stream') : (s.setPipe stream p).pipe stream' = s.pipe stream' := by
  cases stream <;> cases stream' <;> first | rfl | exact absurd rfl h

@[simp] theorem Sys.setPipe_selected (s : Sys) (stream : Stream) (p : Pipe) :
    (s.setPipe stream p).selected = s.selected := by
  cases stream <;> rfl

/-- `JobHandle::poll`. The handle drops its receiver when it resolves, and is
pending from then on. The sender is dropped when `drive_job` returns: a handle
that has no answer by then resolves with a cancellation of its own. -/
def Sys.pollHandle (s : Sys) : Sys :=
  match s.handleYields, s.outcomeRx, s.ctl with
  | none, .sent outcome, _ =>
      { s with outcomeRx := .taken outcome, handleYields := some outcome }
  | none, .empty, .returned => { s with handleYields := some (.cancelled []) }
  | _, _, _ => s

/-- One step of the job. `Runtime::cancel` and `JobHandle::cancel` are the same
two steps: a call that reads `Finalized` returns at once, any other goes on to
cancel the token. -/
def Sys.step (cfg : Config) (s : Sys) : Label → Option Sys
  | .driver w => s.driverStep cfg w
  | .wait choice w => s.waitStep cfg w choice
  | .cancelCheck =>
      if s.snapshot.state = .finalized then some s
      else some { s with callers := s.callers + 1 }
  | .cancelToken =>
      if s.callers = 0 then none
      else some { s with token := true, callers := s.callers - 1, accepted := s.accepted + 1 }
  | .pollHandle => some s.pollHandle
  | .arrive stream bytes =>
      if s.child.isNone || (s.pipe stream).fin.isSome then none
      else some (s.setPipe stream ((s.pipe stream).arrive bytes))
  | .close stream how =>
      if s.child.isNone || (s.pipe stream).fin.isSome then none
      else some (s.setPipe stream ((s.pipe stream).close how))
  | .exitLeader cause status =>
      if s.child.isSome then
        (s.group.exitLeader cause status).map (fun group => { s with group })
      else none
  | .failWait error =>
      if s.child.isSome then (s.group.failWait error).map (fun group => { s with group })
      else none
  | .exitDescendant i cause =>
      if s.child.isSome then
        (s.group.exitDescendant i cause).map (fun group => { s with group })
      else none
  | .fork parent ignoresTerm =>
      if s.child.isSome then
        (s.group.fork parent ignoresTerm).map (fun group => { s with group })
      else none
  | .elapse d => some { s with instant := s.instant + d }

/-- The snapshot `Runtime::spawn` builds. -/
def Config.initialJob (cfg : Config) : Job where
  id := cfg.id
  command := cfg.spec
  createdAt := cfg.createdAt
  startedAt := none
  state := .queued
  currentPhase := none
  progress := .unknown
  label := cfg.spec.label
  exit := none
  outcome := none

/-- A job that `Runtime::spawn` has accepted: its snapshot is stored (a failed
first upsert refuses the job) and known to the runtime, nothing is sent. -/
def Sys.init (cfg : Config) : Sys where
  ctl := settle (spawnJob cfg)
  snapshot := cfg.initialJob
  store := cfg.store.map (fun store => store.upsertJob cfg.initialJob)

/-- `Runtime::job` for a job of this runtime. -/
def Sys.job (s : Sys) : Job := s.snapshot

/-- A command without an interpreter, a timeout or a store. -/
def plainConfig : Config := { id := ⟨0⟩, spec := { program := "tool" } }

/-- The driver takes `n` steps with the world's default answers. Twelve lead
it to its loop when there is no log file. -/
def drive (n : Nat) : List Label := List.replicate n (.driver {})

/-- The child closes both pipes and exits by itself, and the wait task reports
it. -/
def leaveQuietly : List Label :=
  [.close .stdout .eof, .close .stderr .eof, .exitLeader .own (.exited 0),
    .wait .go {}, .wait .child {}, .wait .go {}]

/-- The states of the job along all its runs. -/
def Sys.Reachable (cfg : Config) (s : Sys) : Prop :=
  Transition.Reachable (Sys.step cfg) (Sys.init cfg) s

end Execra
