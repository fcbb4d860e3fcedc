import Execra.Model.Data

/-!
The wire protocol and the interpreter contract. Every variant of the source's
`Event` carries `job` and `at`, and `Event::job_id` and `Event::at` read them
back; here the two are fields of `Event` and the rest of a variant is its
`EventBody`.
-/

namespace Execra

inductive EventBody where
  | jobCreated (command : CommandSpec)
  | jobStarted (pid : Nat)
  | phaseEntered (phase : PhaseId) (name : String) (label : Option String)
  | phaseUpdated (phase : PhaseId) (label : String)
  | phaseExited (phase : PhaseId)
  | progressUpdated (progress : Progress)
  | labelUpdated (label : String)
  | outputAppended (stream : Stream) (line : String)
  | warningDetected (code : Option String) (message : String)
  | knownErrorDetected (code message : String)
  | findingEmitted (finding : Finding)
  | promptDetected (prompt : String)
  | interpreterError (interpreter error : String) (line : Option String)
  | exited (code : ExitCode)
  | finalized (outcome : Outcome)
  | cancelled
deriving DecidableEq, Repr

structure Event where
  job : JobId
  body : EventBody
  time : SystemTime
deriving DecidableEq, Repr

/-- `interpreter::Line`. -/
structure Line where
  stream : Stream
  text : String
  time : SystemTime
deriving DecidableEq, Repr

/-- `interpreter::Context`. The phase stack is listed from its bottom. -/
structure Context where
  job : JobId
  command : CommandSpec
  currentPhase : Option Phase
  phaseStack : List Phase
  elapsed : Duration
deriving DecidableEq, Repr

inductive InterpreterEvent where
  | enterPhase (name : String) (label : Option String)
  | updatePhase (label : String)
  | exitPhase
  | progress (progress : Progress)
  | label (text : String)
  | warning (code : Option String) (message : String)
  | knownError (code message : String)
  | finding (finding : Finding)
  | prompt (prompt : String)
  | summary (text : String)
deriving DecidableEq, Repr

/-- What a guarded interpreter call gives back to the driver: the events it
returned, or the text `panic_msg` extracts from its panic. An interpreter is
not modelled further: its answers are arbitrary, call by call, which covers
every implementation of the trait. -/
abbrev InterpreterReply := Except String (List InterpreterEvent)

end Execra
