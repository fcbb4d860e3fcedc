import Execra.Model.App

/-!
`execra run` (`main.rs` of the command line): one job in a runtime of its own, and a
loop that selects between the events of the job and its handle. `select!` asks its
branches in any order and takes the first that is ready; so each branch is a step here
that may be taken whenever it is ready, and the job moves in between. What is put out
is a list, on whichever of the two outputs an item belongs to.
-/

namespace Execra

/-- Something that is put out: a JSON object, a line of the job, or its outcome. -/
inductive Printed where
  | object (event : Event)
  | line (stream : Stream) (text : String)
  | outcome (outcome : Outcome)
deriving DecidableEq

def printEvent (event : Event) (json : Bool) : List Printed :=
  if json then [.object event]
  else match event.body with
    | .outputAppended stream line => [.line stream line]
    | _ => []

def printOutcome (outcome : Outcome) : List Printed := [.outcome outcome]

/-- The state of `run` in its loop. `index` is the place of the job among those of the
runtime, `printed` all that was put out so far. -/
structure Cli where
  app : App
  index : Nat
  job : JobId
  events : EventStream
  json : Bool
  finalizedSeen : Bool := false
  printed : List Printed := []
  returned : Bool := false

inductive CliLabel where
  /-- A step of the job, or of another process on the same history. -/
  | runtime (l : RuntimeLabel)
  /-- A round of `events.next()`. -/
  | event
  /-- The handle is ready, and its branch is taken. -/
  | handle (now : SystemTime)

/-- The loop is the only one to poll the handle. -/
def RuntimeLabel.pollsHandle : RuntimeLabel → Bool
  | .job _ .pollHandle => true
  | _ => false

namespace Cli

/-- `run`, up to its loop: the runtime is opened, the job spawned, and the first
receiver of the handle taken, which was made before the job sent anything. Without a
state it has returned an error. -/
def start (config : RuntimeConfig) (maxConcurrent : Nat) (history : Option Store) (cfg : Config)
    (upsertOk json : Bool) : Option Cli :=
  match Runtime.build config maxConcurrent history with
  | .error _ => none
  | .ok rt =>
      if rt.store.isSome && !upsertOk then none
      else (App.stepRuntime { rt } (.spawn cfg upsertOk)).map (fun app =>
        { app
          index := rt.jobs.length
          job := cfg.id
          events := { rx := app.events.tail, filter := some cfg.id }
          json })

/-- The handle is polled, and is ready. -/
def pollHandle (s : Cli) : Option (App × Outcome) :=
  (s.app.stepRuntime (.job s.index .pollHandle)).bind (fun app =>
    (app.rt.jobs[s.index]?).bind (fun e => e.sys.handleYields.map (fun outcome => (app, outcome))))

/-- What is put out when the handle has resolved. -/
def printEnd (s : Cli) (outcome : Outcome) (now : SystemTime) : List Printed :=
  if s.json then
    if s.finalizedSeen then []
    else printEvent { job := s.job, body := .finalized outcome, time := now } true
  else printOutcome outcome

/-- The stream never ends: the runtime keeps a sender. -/
def step (s : Cli) (l : CliLabel) : Option Cli :=
  if s.returned then none
  else match l with
    | .runtime l =>
        if l.pollsHandle then none else (s.app.stepRuntime l).map (fun app => { s with app })
    | .event =>
        match s.events.round s.app.events with
        | .pending => none
        | .again events => some { s with events }
        | .ready event events =>
            some { s with
              events
              finalizedSeen := s.finalizedSeen || event.body.isFinalized
              printed := s.printed ++ printEvent event s.json }
    | .handle now =>
        s.pollHandle.map (fun polled =>
          { s with
            app := polled.1
            printed := s.printed ++ s.printEnd polled.2 now
            returned := true })

end Cli

end Execra
