import Execra.Foundation.Program
import Execra.Model.ProcGroup
import Execra.Model.Store

/-!
The per-job driver (`driver::drive_job`) as a program over its atomic
operations. What an operation does to the job is fixed elsewhere, once for
the driver alone and once for the whole job; here stands the order in which
the driver performs them. The select loop is not inside one program: every
turn of it is a program that ends with the loop's variables, and the job goes
back to the head of the loop with them.

The stdin writer task and the builder calls on `TokioCommand` have no effect
that the job's events, snapshot or outcome depend on, and are left out.
-/

namespace Execra

inductive RawOutputPolicy where
  | persist | persistGzipOnFinalize | memoryOnly | disabled
deriving DecidableEq, Repr

structure RuntimeConfig where
  logDir : Option String := none
  rawOutput : RawOutputPolicy := .disabled
  defaultGracePeriod : Duration := 5000000000
deriving DecidableEq, Repr

/-- What is fixed for one job: its command, the runtime's configuration,
whether the command carries an interpreter, the store as it was before the
job was accepted, and the values `PhaseId::new` will return. -/
structure Config where
  id : JobId
  spec : CommandSpec
  createdAt : SystemTime := 0
  interpreter : Bool := false
  runtime : RuntimeConfig := {}
  store : Option Store := none
  phaseIds : Nat → PhaseId := PhaseId.mk

/-- The closures the driver passes to `update_snapshot`. -/
inductive SnapshotUpdate where
  | running (startedAt : SystemTime)
  | phase (current : Option PhaseId)
  | progress (progress : Progress)
  | label (text : String)
  | exited (exit : ExitCode)
  | finalized (outcome : Outcome)
deriving DecidableEq, Repr

def SnapshotUpdate.apply (j : Job) : SnapshotUpdate → Job
  | .running t => { j with state := .running, startedAt := some t }
  | .phase current => { j with currentPhase := current }
  | .progress p => { j with progress := p }
  | .label text => { j with label := some text }
  | .exited ec => { j with exit := some ec, state := .exited }
  | .finalized outcome => { j with state := .finalized, outcome := some outcome }

/-- `wait::WaitOutcome`. -/
structure WaitOutcome where
  status : Except IoError ExitStatus
  timedOut : Bool
deriving DecidableEq

inductive Op where
  | acquirePermit
  | instant
  | now
  | newPhaseId
  | openRawFile
  | spawnChild
  | send (event : Event)
  | insertEvent (event : Event)
  | updateSnapshot (update : SnapshotUpdate)
  | upsertSnapshot
  | writeRaw (text : String)
  | pushMemoryRaw (line : String)
  | finalizeRawLog
  | spawnWaitTask (procGroup : Option ProcessGroup)
  | onLine (ctx : Context) (line : Line)
  | onExit (ctx : Context) (exit : ExitCode)
  | isCancelled
  | reply (outcome : Outcome)

def Op.Ans : Op → Type
  | .acquirePermit => Bool
  | .instant => Instant
  | .now => SystemTime
  | .newPhaseId => PhaseId
  | .spawnChild => Except IoError Nat
  | .onLine _ _ => InterpreterReply
  | .onExit _ _ => InterpreterReply
  | .isCancelled => Bool
  | _ => Unit

abbrev Driver (α : Type) := Program Op Op.Ans α

namespace Driver

def acquirePermit : Driver Bool := .op .acquirePermit .ret
def instant : Driver Instant := .op .instant .ret
def now : Driver SystemTime := .op .now .ret
def newPhaseId : Driver PhaseId := .op .newPhaseId .ret
def openRawFile : Driver Unit := .op .openRawFile .ret
/-- `tcmd.spawn()`; the answer on success is the child's id. -/
def spawnChild : Driver (Except IoError Nat) := .op .spawnChild .ret
def send (event : Event) : Driver Unit := .op (.send event) .ret
def insertEvent (event : Event) : Driver Unit := .op (.insertEvent event) .ret
def updateSnapshot (u : SnapshotUpdate) : Driver Unit := .op (.updateSnapshot u) .ret
/-- `persist_snapshot`: nobody but the driver writes the snapshot, so cloning
it and upserting the clone is one step. -/
def persistSnapshot : Driver Unit := .op .upsertSnapshot .ret
/-- `if let Some(file) = raw_file.as_mut() { file.write_all(..) }`. -/
def writeRaw (text : String) : Driver Unit := .op (.writeRaw text) .ret
def pushMemoryRaw (line : String) : Driver Unit := .op (.pushMemoryRaw line) .ret
def finalizeRawLog : Driver Unit := .op .finalizeRawLog .ret
def spawnWaitTask (procGroup : Option ProcessGroup) : Driver Unit :=
  .op (.spawnWaitTask procGroup) .ret
/-- `catch_unwind(|| interp.on_line(&ctx, &line))`. -/
def onLine (ctx : Context) (line : Line) : Driver InterpreterReply :=
  .op (.onLine ctx line) .ret
def onExit (ctx : Context) (exit : ExitCode) : Driver InterpreterReply :=
  .op (.onExit ctx exit) .ret
def isCancelled : Driver Bool := .op .isCancelled .ret
/-- `outcome_tx.send(outcome)`. -/
def reply (outcome : Outcome) : Driver Unit := .op (.reply outcome) .ret

end Driver

open Driver

/-- The phase stack is kept with its top first. -/
structure DriverState where
  phaseStack : List Phase := []
  findings : List Finding := []
  summary : Option String := none
  knownError : Option (String × String) := none
  interpDisabled : Bool := false
deriving DecidableEq, Repr

/-- The local variables of the select loop. -/
structure LoopVars where
  start : Instant
  state : DriverState := {}
  stdoutDone : Bool := false
  stderrDone : Bool := false
  childExited : Bool := false
  timedOut : Bool := false
  exitStatus : Option (Except IoError ExitStatus) := none

/-- The negated condition of the `while`. -/
def LoopVars.ended (v : LoopVars) : Bool := v.stdoutDone && v.stderrDone && v.childExited

/-- Where a program of the driver hands over: to the head of the loop, or out
of `drive_job`. -/
inductive Next where
  | loop (vars : LoopVars)
  | returned

section Emitting

variable (cfg : Config)

/-- `driver::emit`. -/
def emit (body : EventBody) (time : SystemTime) : Driver Unit := do
  send { job := cfg.id, body, time }
  insertEvent { job := cfg.id, body, time }

def emitInterpError (error : String) (line : Option String) (time : SystemTime) :
    Driver Unit :=
  emit cfg (.interpreterError "interpreter" error line) time

/-- One iteration of the loop of `apply_events`. -/
def applyEvent (ev : InterpreterEvent) (state : DriverState) : Driver DriverState := do
  let time ← now
  match ev with
  | .enterPhase name label =>
      let id ← newPhaseId
      let phase : Phase := { id, name, label, enteredAt := time }
      updateSnapshot (.phase (some id))
      emit cfg (.phaseEntered id name label) time
      return { state with phaseStack := phase :: state.phaseStack }
  | .updatePhase label =>
      match state.phaseStack with
      | top :: rest =>
          emit cfg (.phaseUpdated top.id label) time
          return { state with phaseStack := { top with label := some label } :: rest }
      | [] =>
          emitInterpError cfg "UpdatePhase with empty phase stack" none time
          return state
  | .exitPhase =>
      match state.phaseStack with
      | top :: rest =>
          updateSnapshot (.phase (rest.head?.map Phase.id))
          emit cfg (.phaseExited top.id) time
          return { state with phaseStack := rest }
      | [] =>
          emitInterpError cfg "ExitPhase with empty phase stack" none time
          return state
  | .progress progress =>
      updateSnapshot (.progress progress.normalize)
      emit cfg (.progressUpdated progress.normalize) time
      return state
  | .label text =>
      updateSnapshot (.label text)
      emit cfg (.labelUpdated text) time
      return state
  | .warning code message =>
      emit cfg (.warningDetected code message) time
      return state
  | .knownError code message =>
      emit cfg (.knownErrorDetected code message) time
      return { state with knownError := some (code, message) }
  | .finding finding =>
      emit cfg (.findingEmitted finding) time
      return { state with findings := state.findings ++ [finding] }
  | .prompt prompt =>
      emit cfg (.promptDetected prompt) time
      return state
  | .summary text => return { state with summary := some text }

/-- `driver::apply_events`. -/
def applyEvents : List InterpreterEvent → DriverState → Driver DriverState
  | [], state => return state
  | ev :: evs, state => do applyEvents evs (← applyEvent cfg ev state)

/-- What follows a guarded interpreter call: its events are applied, or the
panic disables the interpreter and is reported with the line it was given. -/
def settleReply (reply : InterpreterReply) (line : Option String) (state : DriverState) :
    Driver DriverState := do
  match reply with
  | .ok evs => applyEvents cfg evs state
  | .error panic =>
      let time ← now
      emit cfg (.interpreterError "interpreter" panic line) time
      return { state with interpDisabled := true }

/-- The context of an interpreter call. -/
def interpContext (start : Instant) (state : DriverState) : Driver Context := do
  let t ← instant
  return { job := cfg.id, command := cfg.spec, currentPhase := state.phaseStack.head?,
           phaseStack := state.phaseStack.reverse, elapsed := t - start }

/-- The interpreter part of `process_line`. -/
def interpretLine (start : Instant) (line : Line) (state : DriverState) :
    Driver DriverState :=
  if cfg.interpreter && !state.interpDisabled then do
    let ctx ← interpContext cfg start state
    settleReply cfg (← onLine ctx line) (some line.text) state
  else return state

/-- The text `process_line` keeps of a line, in the log and in memory. -/
def rawLine (stream : Stream) (text : String) : String := "[" ++ stream.asStr ++ "] " ++ text

/-- The `MemoryOnly` branch of `process_line`. -/
def rememberRaw (line : String) : Driver Unit :=
  if cfg.runtime.rawOutput = .memoryOnly then pushMemoryRaw line else return ()

/-- `driver::process_line`. -/
def processLine (start : Instant) (stream : Stream) (text : String) (state : DriverState) :
    Driver DriverState := do
  let time ← now
  writeRaw (rawLine stream text ++ "\n")
  rememberRaw cfg (rawLine stream text)
  send { job := cfg.id, body := .outputAppended stream text, time }
  interpretLine cfg start { stream, text, time } state

/-- `driver::run_on_exit`. -/
def runOnExit (start : Instant) (exit : ExitCode) (state : DriverState) :
    Driver DriverState :=
  if cfg.interpreter && !state.interpDisabled then do
    let ctx ← interpContext cfg start state
    settleReply cfg (← onExit ctx exit) none state
  else return state

/-- The loop of `exit_open_phases`. -/
def popOpenPhases : List Phase → Driver Unit
  | [] => return ()
  | top :: rest => do
      emit cfg (.phaseExited top.id) (← now)
      popOpenPhases rest

/-- `driver::exit_open_phases`. -/
def exitOpenPhases (state : DriverState) : Driver DriverState := do
  popOpenPhases cfg state.phaseStack
  updateSnapshot (.phase none)
  return { state with phaseStack := [] }

end Emitting

/-- `driver::compute_outcome`. -/
def computeOutcome (wasCancelled timedOut : Bool) (exit : ExitCode) (state : DriverState) :
    Outcome :=
  if wasCancelled then .cancelled state.findings
  else if timedOut then .failed .timeout state.summary state.findings
  else if exit.isSuccess then .succeeded state.summary state.findings
  else
    let reason : FailureReason :=
      match state.knownError, exit.signal, exit.code with
      | some (code, message), _, _ => .knownError code message
      | none, some sig, _ => .signal sig
      | none, none, some c => .nonZeroExit c
      | none, none, none => .nonZeroExit (-1)
    .failed reason state.summary state.findings

/-- The exit code the driver reads off what the wait task sent. -/
def exitCodeOf (status : Except IoError ExitStatus) : ExitCode :=
  match status with
  | .ok s => fromStatus s
  | .error _ => { code := none, signal := none }

/-- The exit code `drive_job` classifies the job by, after the loop. -/
def finalExitCode (exitStatus : Option (Except IoError ExitStatus)) : ExitCode :=
  match exitStatus with
  | some (.ok s) => fromStatus s
  | _ => { code := none, signal := none }

/-- Whether `open_raw_log` opens a log file at all. -/
def RuntimeConfig.persistsRaw (config : RuntimeConfig) : Bool :=
  config.logDir.isSome &&
    match config.rawOutput with
    | .persist | .persistGzipOnFinalize => true
    | .memoryOnly | .disabled => false

/-- What a turn of the select loop finds ready: the result of `next_line` for
one of the streams, or what the exit channel delivered (`none` when the wait
task is gone without having sent). -/
inductive SelectResult where
  | line (stream : Stream) (result : Option (Except IoError String))
  | exit (result : Option WaitOutcome)
deriving DecidableEq

def LoopVars.setDone (v : LoopVars) : Stream → LoopVars
  | .stdout => { v with stdoutDone := true }
  | .stderr => { v with stderrDone := true }

def LoopVars.done (v : LoopVars) : Stream → Bool
  | .stdout => v.stdoutDone
  | .stderr => v.stderrDone

section DriveJob

variable (cfg : Config)

/-- The end of `drive_job`, which the spawn failure path repeats. -/
def finalizeJob (outcome : Outcome) : Driver Unit := do
  updateSnapshot (.finalized outcome)
  persistSnapshot
  finalizeRawLog
  emit cfg (.finalized outcome) (← now)
  reply outcome

/-- What the driver does once its child is running, up to the loop. -/
def startJob (start : Instant) (pid : Nat) : Driver Next := do
  let procGroup := ProcessGroup.assign (some pid)
  emit cfg (.jobStarted pid) (← now)
  updateSnapshot (.running (← now))
  persistSnapshot
  spawnWaitTask procGroup
  return .loop { start }

/-- `raw_output::open_raw_log`. -/
def openRawLog : Driver Unit :=
  if cfg.runtime.persistsRaw then openRawFile else return ()

/-- `drive_job` up to the loop. -/
def launchJob : Driver Next := do
  match ← acquirePermit with
  | false => return .returned
  | true =>
      let start ← instant
      openRawLog cfg
      match ← spawnChild with
      | .error e =>
          finalizeJob cfg (.failed (.spawnFailed e.text) none [])
          return .returned
      | .ok pid => startJob cfg start pid

/-- `Runtime::spawn` after the job was accepted, and the driver it spawns. -/
def spawnJob : Driver Next := do
  emit cfg (.jobCreated cfg.spec) cfg.createdAt
  launchJob cfg

/-- The exit branch of the select loop. -/
def receiveExit (v : LoopVars) (result : Option WaitOutcome) : Driver Next := do
  let status := match result with
    | some outcome => outcome.status
    | none => .error { text := "wait task dropped" }
  let ec := exitCodeOf status
  emit cfg (.exited ec) (← now)
  updateSnapshot (.exited ec)
  persistSnapshot
  return .loop
    { v with
      childExited := true
      timedOut := (result.map WaitOutcome.timedOut).getD false
      exitStatus := some status }

/-- The body of the select loop, for the branch that completed. -/
def loopTurn (v : LoopVars) : SelectResult → Driver Next
  | .line stream (some (.ok text)) => do
      let state ← processLine cfg v.start stream text v.state
      return .loop { v with state }
  | .line stream _ => return .loop (v.setDone stream)
  | .exit result => receiveExit cfg v result

/-- `drive_job` after the loop. -/
def finishJob (v : LoopVars) : Driver Unit := do
  let state ← runOnExit cfg v.start (finalExitCode v.exitStatus) v.state
  let state ← exitOpenPhases cfg state
  let wasCancelled ← isCancelled
  finalizeJob cfg
    (computeOutcome wasCancelled v.timedOut (finalExitCode v.exitStatus) state)

end DriveJob

end Execra
