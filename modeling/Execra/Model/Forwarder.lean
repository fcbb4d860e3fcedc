import Execra.Model.Event
import Execra.Model.Float

/-!
The forwarder of a job (`tauri.rs`): the task that hands the events of a job to
the observers and the channel of its `TaskBuilder`. Its loop is written twice,
with a ticker for synthetic progress and without. A turn of either loop is a
step here; what it awaits arrives as a `Wakeup`. An observer is any function that
returns, and which of them is called with which event is all that is modelled of it.
-/

namespace Execra

/-- `CreepFn`. -/
abbrev Creep := String → Option (F32 × F32)

structure CreepState where
  cap : F32
  cur : F32
  done : Bool
deriving DecidableEq, Repr

namespace CreepState

def new (start finish : F32) : CreepState where
  cap := start.add ((F32.ofRat (95 / 100)).mul (finish.sub start))
  cur := start
  done := false

def tick (cs : CreepState) : Option F32 × CreepState :=
  if cs.done then (none, cs)
  else if cs.cap.le (cs.cur.add (F32.ofRat (1 / 10000))) then (none, { cs with done := true })
  else
    let new := (cs.cur.add ((cs.cap.sub cs.cur).mul (F32.ofRat (2 / 100)))).min cs.cap
    let percent (value : F32) := (value.mul (.finite 100)).roundToI32
    (if percent new = percent cs.cur then none else some new, { cs with cur := new })

end CreepState

/-- What a `TaskBuilder` says about the forwarding: the name of the channel, how
many observers there are, and the function of the ticker. -/
structure TaskBuilder where
  channel : Option String := none
  observers : Nat := 0
  creep : Option Creep := none

/-- `spawn_with_forwarding` makes a forwarder only if it has something to do. -/
def TaskBuilder.forwards (b : TaskBuilder) : Bool :=
  b.channel.isSome || b.observers != 0 || b.creep.isSome

inductive Recipient where
  | observer (i : Nat)
  | channel (name : String)
deriving DecidableEq, Repr

/-- One event handed to one recipient. Nothing in the event tells that it is
synthetic; `synthetic` records it. -/
structure Delivery where
  recipient : Recipient
  event : Event
  synthetic : Bool
deriving DecidableEq, Repr

def TaskBuilder.deliver (b : TaskBuilder) (event : Event) (synthetic : Bool) : List Delivery :=
  (List.range b.observers).map (fun i => ⟨.observer i, event, synthetic⟩) ++
    b.channel.toList.map (fun name => ⟨.channel name, event, synthetic⟩)

/-- The task of `forward_events`. `state` is the ticker's, `delivered` all that
has been handed out so far, `stopped` whether the task has returned. -/
structure Forwarder where
  job : JobId
  builder : TaskBuilder
  state : Option CreepState := none
  delivered : List Delivery := []
  stopped : Bool := false

/-- What the task awaits: the stream gives the next event, or ends; or the ticker
ticks. -/
inductive Wakeup where
  | next (event : Option Event)
  | tick (now : SystemTime)
deriving DecidableEq, Repr

def EventBody.isFinalized : EventBody → Bool
  | .finalized _ => true
  | _ => false

/-- `Event::ProgressUpdated` of the ticker. -/
def creepEvent (job : JobId) (value : F32) (now : SystemTime) : Event where
  job
  body := .progressUpdated (.fraction value)
  time := now

/-- The ticker after an event. A phase without a range leaves it disarmed. -/
def rearm (creep : Creep) (state : Option CreepState) : EventBody → Option CreepState
  | .phaseEntered _ name _ =>
      ((creep name).filter (fun range => range.1.lt range.2)).map (fun range =>
        CreepState.new range.1 range.2)
  | .phaseExited _ | .finalized _ | .cancelled => none
  | _ => state

namespace Forwarder

/-- A turn of the loop without a ticker. -/
def plainTurn (f : Forwarder) : Option Event → Forwarder
  | none => { f with stopped := true }
  | some event =>
      { f with
        delivered := f.delivered ++ f.builder.deliver event false
        stopped := event.body.isFinalized }

/-- A turn of the loop with a ticker; its branch is enabled while it is armed. -/
def creepTurn (creep : Creep) (f : Forwarder) : Wakeup → Option Forwarder
  | .next none => some { f with stopped := true }
  | .next (some event) =>
      some { f with
        state := rearm creep f.state event.body
        delivered := f.delivered ++ f.builder.deliver event false
        stopped := event.body.isFinalized }
  | .tick now =>
      f.state.map (fun cs =>
        match cs.tick with
        | (some fraction, cs) =>
            { f with
              state := some cs
              delivered := f.delivered ++
                f.builder.deliver (creepEvent f.job fraction now) true }
        | (none, cs) => { f with state := if cs.done then none else some cs })

/-- A turn of the task, unless it has returned. -/
def turn (f : Forwarder) (w : Wakeup) : Option Forwarder :=
  if f.stopped then none
  else match f.builder.creep, w with
    | some creep, w => f.creepTurn creep w
    | none, .next event => some (f.plainTurn event)
    | none, .tick _ => none

/-- The task when a list of wakeups comes; one it does not await passes by. -/
def feed (f : Forwarder) (ws : List Wakeup) : Forwarder :=
  ws.foldl (fun f w => (f.turn w).getD f) f

end Forwarder

/-! The typed observers of a `TaskBuilder`: what each calls its function with, if it
does so for an event. -/

def onCreated (event : Event) : Option JobId :=
  match event.body with
  | .jobCreated _ => some event.job
  | _ => none

def onOutput (event : Event) : Option (Stream × String) :=
  match event.body with
  | .outputAppended stream line => some (stream, line)
  | _ => none

def onInterpreterError (event : Event) : Option (String × String × Option String) :=
  match event.body with
  | .interpreterError interpreter error line => some (interpreter, error, line)
  | _ => none

def onFinalized (event : Event) : Option Outcome :=
  match event.body with
  | .finalized outcome => some outcome
  | _ => none

/-- The calls that observer `i` has made. -/
def Forwarder.calls {α : Type} (f : Forwarder) (observer : Event → Option α) (i : Nat) : List α :=
  (f.delivered.filter (fun d => d.recipient = .observer i)).filterMap
    (fun d => observer d.event)

end Execra
