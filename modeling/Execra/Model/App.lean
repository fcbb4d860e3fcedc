import Execra.Foundation.Broadcast
import Execra.Model.Forwarder
import Execra.Model.Runtime

/-!
A runtime in an application: the channel its jobs broadcast their events on, and
the tasks that were started by way of a `TaskBuilder`, each with its forwarder. A
forwarder reads one value of the channel in a step, or takes one tick, and
everybody else may move in between; between the two polls of its `select!` as
well, so a tick may come while there is something to read.

The application keeps the runtime, and the runtime keeps a sender: the channel
does not close.

The functions of a builder return here. One that panics ends the task of its
forwarder, which then has no further turn.
-/

namespace Execra

/-- The event that a step of a job sends. -/
def Sys.sends (cfg : Config) (s : Sys) : Label → Option Event
  | .driver _ =>
      match s.ctl with
      | .run (.op (.send event) _) => some event
      | _ => none
  | .wait .go _ =>
      match s.wait.pc with
      | .cancelSend time => some (cancelledEvent cfg time)
      | _ => none
  | _ => none

def Runtime.sends (rt : Runtime) : RuntimeLabel → Option Event
  | .job i own => rt.jobs[i]?.bind (fun e => e.sys.sends e.cfg own)
  | _ => none

/-- `broadcast::channel(1024)`. -/
abbrev EventChannel := Broadcast 1024 Event

structure EventStream where
  rx : Nat
  filter : Option JobId

/-- What a round of the loop in `EventStream::next` comes to. -/
inductive Round where
  | pending
  | again (stream : EventStream)
  | ready (event : Event) (stream : EventStream)

def EventStream.round (stream : EventStream) (events : EventChannel) : Round :=
  match events.recv stream.rx with
  | (.value event, rx) =>
      if stream.filter.any (fun job => event.job ≠ job) then .again { stream with rx }
      else .ready event { stream with rx }
  | (.lagged _, rx) => .again { stream with rx }
  | (.empty, _) => .pending

/-- The task that `forward_events` spawns. Its receiver goes with it when it
returns. -/
structure ForwardTask where
  stream : EventStream
  forwarder : Forwarder

structure App where
  rt : Runtime
  events : EventChannel := .new
  tasks : List ForwardTask := []

inductive AppLabel where
  | runtime (l : RuntimeLabel)
  /-- A call of `spawn_with_forwarding`. -/
  | task (builder : TaskBuilder) (cfg : Config) (upsertOk : Bool)
  /-- Forwarder `k` polls its receiver. -/
  | receive (k : Nat)
  /-- The ticker of forwarder `k` ticks. -/
  | tick (k : Nat) (now : SystemTime)

/-- `runtime::Error`, as far as `spawn` returns it. `text` is that of the `StoreError`. -/
inductive Error where
  | store (text : String)
deriving DecidableEq, Repr

def Error.text : Error → String
  | .store text => "store: " ++ text

namespace App

def sends (s : App) : AppLabel → Option Event
  | .runtime l => s.rt.sends l
  | _ => none

/-- A step of the runtime, and what it sends. -/
def stepRuntime (s : App) (l : RuntimeLabel) : Option App :=
  (s.rt.step l).map (fun rt =>
    { s with
      rt
      events := match s.rt.sends l with
        | some event => s.events.send event
        | none => s.events })

/-- `spawn_with_forwarding`. The receiver of the handle is made before the job
sends anything, and the forwarder gets it. -/
def spawnTask (s : App) (builder : TaskBuilder) (cfg : Config) (upsertOk : Bool) : Option App :=
  (s.stepRuntime (.spawn cfg upsertOk)).map (fun t =>
    if (s.rt.store.isSome && !upsertOk) || !builder.forwards then t
    else
      { t with
        tasks := t.tasks ++ [{
          stream := { rx := t.events.tail, filter := some cfg.id }
          forwarder := { job := cfg.id, builder } }] })

/-- A turn of a forwarder's loop. -/
def turnTask (s : App) (k : Nat) (task : ForwardTask) (w : Wakeup) (stream : EventStream) :
    Option App :=
  (task.forwarder.turn w).map (fun forwarder =>
    { s with tasks := s.tasks.set k { stream, forwarder } })

def step (s : App) : AppLabel → Option App
  | .runtime l => s.stepRuntime l
  | .task builder cfg upsertOk => s.spawnTask builder cfg upsertOk
  | .receive k =>
      match s.tasks[k]? with
      | none => none
      | some task =>
          if task.forwarder.stopped then none
          else match task.stream.round s.events with
            | .pending => none
            | .again stream => some { s with tasks := s.tasks.set k { task with stream } }
            | .ready event stream => s.turnTask k task (.next (some event)) stream
  | .tick k now =>
      match s.tasks[k]? with
      | none => none
      | some task => s.turnTask k task (.tick now) task.stream

/-- What the handle of a job has come to. -/
def handle (s : App) (job : JobId) : Option Outcome :=
  (s.rt.jobs.find? (fun e => e.cfg.id = job)).bind (fun e => e.sys.handleYields)

/-- The handle of a task and then its forwarder, which returns by itself, have been
awaited. -/
def awaited (s : App) (task : ForwardTask) : Option Outcome :=
  if task.forwarder.stopped then s.handle task.forwarder.job else none

/-- What a call of `spawn_with_forwarding` returns: the error of the first upsert, which
reads `error`, or the handle, by its job, and the forwarder, by its place. -/
def spawned (s : App) (builder : TaskBuilder) (cfg : Config) (upsertOk : Bool)
    (error : String) : Except Error (JobId × Option Nat) :=
  if s.rt.store.isSome && !upsertOk then .error (.store error)
  else .ok (cfg.id, if builder.forwards then some s.tasks.length else none)

/-- `into_future`: what awaiting a `TaskBuilder` has come to, after its call of
`spawn_with_forwarding` has returned. `panicked` says that one of its functions has
panicked in the forwarder, whose `JoinError` is dropped. -/
def intoFuture (s : App) (panicked : Bool) : Except Error (JobId × Option Nat) → Option Outcome
  | .error e => some (.failed (.spawnFailed e.text) none [])
  | .ok (job, none) => s.handle job
  | .ok (job, some k) => if panicked then s.handle job else s.tasks[k]?.bind s.awaited

end App

end Execra
