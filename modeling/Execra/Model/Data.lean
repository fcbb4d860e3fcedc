import Mathlib.Algebra.Order.Ring.Rat
import Mathlib.Tactic.DeriveFintype

/-!
The data the runtime passes around: command specifications, findings,
progress values, exit codes, outcomes and job snapshots. Field names are the
source's in this project's case convention. The `at` fields are called `time`
here. A `PathBuf` is a `String`, a `SystemTime` is its signed distance to
`UNIX_EPOCH` in nanoseconds, a `Duration` a number of nanoseconds, and an
`f32` is read as the exact rational it denotes or one of its special values.
-/

namespace Execra

abbrev SystemTime := Int

abbrev Duration := Nat

/-- Readings of the monotonic clock (`std::time::Instant`). -/
abbrev Instant := Nat

/-- `JobId(Uuid)`. -/
structure JobId where
  uuid : Nat
deriving DecidableEq, Repr

/-- `PhaseId(Uuid)`. -/
structure PhaseId where
  uuid : Nat
deriving DecidableEq, Repr

structure CommandSpec where
  program : String
  args : List String := []
  env : List (String × String) := []
  envClear : Bool := false
  cwd : Option String := none
  label : Option String := none
  tags : List String := []
  timeout : Option Duration := none
  hideWindow : Bool := false
deriving DecidableEq, Repr

inductive Severity where
  | info | recommendation | warning | error
deriving DecidableEq, Repr

inductive Action where
  | command (label program : String) (args : List String) (cwd : Option String)
  | link (label url : String)
  | instruction (label text : String)
deriving DecidableEq, Repr

inductive RelatedEntity where
  | package (value : String)
  | file (value : String)
  | url (value : String)
  | other (value : String)
deriving DecidableEq, Repr

structure Finding where
  severity : Severity
  code : String
  message : String
  action : Option Action := none
  related : Option RelatedEntity := none
  time : SystemTime
deriving DecidableEq, Repr

/-- A single-precision float. -/
inductive F32 where
  | nan
  | inf (negative : Bool)
  | finite (q : ℚ)
deriving DecidableEq, Repr

/-- `progress::clamp01`. -/
def clamp01 : F32 → F32
  | .nan => .finite 0
  | .inf negative => if negative then .finite 0 else .finite 1
  | .finite q => .finite (max 0 (min q 1))

inductive ProgressMetric where
  | fraction (value : F32)
  | count (done total : Nat)
  | bytes (done : Nat) (total : Option Nat)
deriving DecidableEq, Repr

inductive Progress where
  | unknown
  | indeterminate (hint : Option String)
  | determinate (metric : ProgressMetric)
deriving DecidableEq, Repr

/-- `Progress::fraction`. -/
def Progress.fraction (value : F32) : Progress := .determinate (.fraction (clamp01 value))

/-- `Progress::normalize`: only a fraction is clamped. -/
def Progress.normalize : Progress → Progress
  | .determinate (.fraction value) => .determinate (.fraction (clamp01 value))
  | other => other

structure ExitCode where
  code : Option Int32
  signal : Option Int32
deriving DecidableEq, Repr

def ExitCode.isSuccess (exit : ExitCode) : Bool := exit.code == some 0

/-- `std::process::ExitStatus` of a terminated process on Unix. -/
inductive ExitStatus where
  | exited (code : Int32)
  | signaled (signal : Int32)
deriving DecidableEq, Repr

def ExitStatus.code : ExitStatus → Option Int32
  | .exited code => some code
  | .signaled _ => none

def ExitStatus.signal : ExitStatus → Option Int32
  | .exited _ => none
  | .signaled signal => some signal

/-- `driver::from_status`. -/
def fromStatus (s : ExitStatus) : ExitCode :=
  match s.signal with
  | some sig => { code := none, signal := some sig }
  | none => { code := s.code, signal := none }

inductive FailureReason where
  | nonZeroExit (code : Int32)
  | signal (signal : Int32)
  | knownError (code message : String)
  | spawnFailed (error : String)
  | timeout
deriving DecidableEq, Repr

inductive Outcome where
  | succeeded (summary : Option String) (findings : List Finding)
  | failed (reason : FailureReason) (summary : Option String) (findings : List Finding)
  | cancelled (findings : List Finding)
deriving DecidableEq, Repr

/-- `JobState::Cancelled` is declared by the source and never written. -/
inductive JobState where
  | queued | running | exited | finalized | cancelled
deriving DecidableEq, Repr

structure Job where
  id : JobId
  command : CommandSpec
  createdAt : SystemTime
  startedAt : Option SystemTime
  state : JobState
  currentPhase : Option PhaseId
  progress : Progress
  label : Option String
  exit : Option ExitCode
  outcome : Option Outcome
deriving DecidableEq, Repr

structure Phase where
  id : PhaseId
  name : String
  label : Option String
  enteredAt : SystemTime
deriving DecidableEq, Repr

inductive Stream where
  | stdout | stderr
deriving DecidableEq, Repr

def Stream.asStr : Stream → String
  | .stdout => "stdout"
  | .stderr => "stderr"

end Execra
