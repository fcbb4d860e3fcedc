import Execra.Foundation.JsonTree
import Execra.Model.Event
import Execra.Model.Float

/-!
The wire format: what the derived `Serialize` and `Deserialize` of an event and
of the data in it write and read, attribute by attribute. A writer that can
refuse its value is an option; the one that does is that of a time before the
epoch, and with it the writers of what holds a time. A path that is not UTF-8 is
refused as well, but here a path is its text. The text of an identifier is that of
the `uuid` crate, of which only this is used: what it writes it reads back.
-/

namespace Execra

open JsonTree

/-- The text of a `Uuid`. -/
structure UuidText where
  write : Nat → String
  parse : String → Option Nat
  parse_write : ∀ u < 2 ^ 128, parse (write u) = some u

/-! The standard library's types, as `serde` implements them. -/

/-- Seconds and nanoseconds. Here a key that is not known is refused, and so are
nanoseconds that carry the seconds out of their range. -/
def readSpan (secsKey nanosKey : String) : JsonTree → Option Nat :=
  readObject fun entries => do
    if (keys entries).all (fun key => key = secsKey || key = nanosKey) then
      let secs ← field secsKey readU64 entries
      let nanos ← field nanosKey readU32 entries
      if secs + nanos / 1000000000 < 2 ^ 64 then some (secs * 1000000000 + nanos) else none
    else none

def writeSpan (secsKey nanosKey : String) (span : Nat) : JsonTree :=
  .object
    [(secsKey, writeNat (span / 1000000000)), (nanosKey, writeNat (span % 1000000000))]

def Duration.serialize (d : Duration) : JsonTree := writeSpan "secs" "nanos" d

def Duration.deserialize : JsonTree → Option Duration := readSpan "secs" "nanos"

/-- "SystemTime must be later than UNIX_EPOCH" -/
def SystemTime.serialize (t : SystemTime) : Option JsonTree :=
  if 0 ≤ t then some (writeSpan "secs_since_epoch" "nanos_since_epoch" t.toNat) else none

/-- `UNIX_EPOCH.checked_add(duration)`, the seconds being an `i64`. -/
def SystemTime.deserialize (tree : JsonTree) : Option SystemTime := do
  let span ← readSpan "secs_since_epoch" "nanos_since_epoch" tree
  if span / 1000000000 < 2 ^ 63 then some (span : Int) else none

/-- A float that is not finite is written as `null`. -/
def F32.serialize : F32 → JsonTree
  | .finite q => .real q
  | .nan | .inf _ => .null

def F32.deserialize : JsonTree → Option F32
  | .int n => some (F32.ofRat n)
  | .real q => some (F32.ofRat q)
  | _ => none

/-! `job`, `phase` and `command`. -/

def JobId.serialize (text : UuidText) (job : JobId) : JsonTree := .string (text.write job.uuid)

def JobId.deserialize (text : UuidText) (tree : JsonTree) : Option JobId := do
  return ⟨← text.parse (← readString tree)⟩

def PhaseId.serialize (text : UuidText) (phase : PhaseId) : JsonTree :=
  .string (text.write phase.uuid)

def PhaseId.deserialize (text : UuidText) (tree : JsonTree) : Option PhaseId := do
  return ⟨← text.parse (← readString tree)⟩

def CommandSpec.serialize (spec : CommandSpec) : JsonTree :=
  .object
    [("program", .string spec.program),
     ("args", writeList .string spec.args),
     ("env", writeList (writePair .string .string) spec.env),
     ("env_clear", .bool spec.envClear),
     ("cwd", writeOption .string spec.cwd),
     ("label", writeOption .string spec.label),
     ("tags", writeList .string spec.tags),
     ("timeout", writeOption Duration.serialize spec.timeout),
     ("hide_window", .bool spec.hideWindow)]

def CommandSpec.deserialize : JsonTree → Option CommandSpec :=
  readObject fun entries => do
    return {
      program := ← field "program" readString entries
      args := ← field "args" (readList readString) entries
      env := ← field "env" (readList (readPair readString readString)) entries
      envClear := ← field "env_clear" readBool entries
      cwd := ← optionalField "cwd" readString entries
      label := ← optionalField "label" readString entries
      tags := ← field "tags" (readList readString) entries
      timeout := ← optionalField "timeout" Duration.deserialize entries
      hideWindow := ← field "hide_window" readBool entries }

/-! `progress`. -/

/-- `tag = "unit", rename_all = "snake_case"`. -/
def ProgressMetric.entries : ProgressMetric → Entries
  | .fraction value => variant "unit" "fraction" [("value", value.serialize)]
  | .count done total =>
      variant "unit" "count" [("done", writeNat done), ("total", writeNat total)]
  | .bytes done total =>
      variant "unit" "bytes" [("done", writeNat done), ("total", writeOption writeNat total)]

def ProgressMetric.serialize (metric : ProgressMetric) : JsonTree := .object metric.entries

def ProgressMetric.deserializeVariant (unit : String) (entries : Entries) :
    Option ProgressMetric :=
  match unit with
  | "fraction" => return .fraction (← field "value" F32.deserialize entries)
  | "count" =>
      return .count (← field "done" readU64 entries)
        (← field "total" readU64 entries)
  | "bytes" =>
      return .bytes (← field "done" readU64 entries)
        (← optionalField "total" readU64 entries)
  | _ => none

def ProgressMetric.deserialize : JsonTree → Option ProgressMetric :=
  readTagged "unit" deserializeVariant

/-- `tag = "kind", rename_all = "snake_case"`. The newtype variant writes its tag
and then the entries of what it holds. -/
def Progress.serialize : Progress → JsonTree
  | .unknown => tagged "kind" "unknown" []
  | .indeterminate hint =>
      tagged "kind" "indeterminate" [("hint", writeOption .string hint)]
  | .determinate metric => tagged "kind" "determinate" metric.entries

def Progress.deserializeVariant (kind : String) (entries : Entries) : Option Progress :=
  match kind with
  | "unknown" => return .unknown
  | "indeterminate" => return .indeterminate (← optionalField "hint" readString entries)
  | "determinate" => return .determinate (← ProgressMetric.deserialize (.object entries))
  | _ => none

def Progress.deserialize : JsonTree → Option Progress := readTagged "kind" deserializeVariant

/-! `finding`. -/

/-- `rename_all = "lowercase"`. -/
def Severity.serialize : Severity → JsonTree
  | .info => .string "info"
  | .recommendation => .string "recommendation"
  | .warning => .string "warning"
  | .error => .string "error"

def Severity.deserialize (tree : JsonTree) : Option Severity := do
  match ← readUnitVariant tree with
  | "info" => some .info
  | "recommendation" => some .recommendation
  | "warning" => some .warning
  | "error" => some .error
  | _ => none

/-- `tag = "kind", rename_all = "snake_case"`. -/
def Action.serialize : Action → JsonTree
  | .command label program args cwd =>
      tagged "kind" "command"
        [("label", .string label), ("program", .string program),
         ("args", writeList .string args), ("cwd", writeOption .string cwd)]
  | .link label url => tagged "kind" "link" [("label", .string label), ("url", .string url)]
  | .instruction label text =>
      tagged "kind" "instruction" [("label", .string label), ("text", .string text)]

def Action.deserializeVariant (kind : String) (entries : Entries) : Option Action :=
  match kind with
  | "command" =>
      return .command (← field "label" readString entries)
        (← field "program" readString entries)
        (← field "args" (readList readString) entries) (← optionalField "cwd" readString entries)
  | "link" =>
      return .link (← field "label" readString entries) (← field "url" readString entries)
  | "instruction" =>
      return .instruction (← field "label" readString entries)
        (← field "text" readString entries)
  | _ => none

def Action.deserialize : JsonTree → Option Action := readTagged "kind" deserializeVariant

/-- `tag = "kind", content = "value", rename_all = "snake_case"`. -/
def RelatedEntity.serialize : RelatedEntity → JsonTree
  | .package value => adjacent "kind" "value" "package" (.string value)
  | .file value => adjacent "kind" "value" "file" (.string value)
  | .url value => adjacent "kind" "value" "url" (.string value)
  | .other value => adjacent "kind" "value" "other" (.string value)

def RelatedEntity.deserializeVariant (kind : String) (value : JsonTree) :
    Option RelatedEntity :=
  match kind with
  | "package" => return .package (← readString value)
  | "file" => return .file (← readString value)
  | "url" => return .url (← readString value)
  | "other" => return .other (← readString value)
  | _ => none

def RelatedEntity.deserialize : JsonTree → Option RelatedEntity :=
  readAdjacent "kind" "value" deserializeVariant

def Finding.serialize (finding : Finding) : Option JsonTree := do
  let time ← SystemTime.serialize finding.time
  return .object
    [("severity", finding.severity.serialize),
     ("code", .string finding.code),
     ("message", .string finding.message),
     ("action", writeOption Action.serialize finding.action),
     ("related", writeOption RelatedEntity.serialize finding.related),
     ("at", time)]

def Finding.deserialize : JsonTree → Option Finding :=
  readObject fun entries => do
    return {
      severity := ← field "severity" Severity.deserialize entries
      code := ← field "code" readString entries
      message := ← field "message" readString entries
      action := ← optionalField "action" Action.deserialize entries
      related := ← optionalField "related" RelatedEntity.deserialize entries
      time := ← field "at" SystemTime.deserialize entries }

/-! `outcome`. -/

def ExitCode.serialize (exit : ExitCode) : JsonTree :=
  .object
    [("code", writeOption writeInt32 exit.code),
     ("signal", writeOption writeInt32 exit.signal)]

def ExitCode.deserialize : JsonTree → Option ExitCode :=
  readObject fun entries => do
    return {
      code := ← optionalField "code" readInt32 entries
      signal := ← optionalField "signal" readInt32 entries }

/-- `tag = "kind", rename_all = "snake_case"`. -/
def FailureReason.serialize : FailureReason → JsonTree
  | .nonZeroExit code => tagged "kind" "non_zero_exit" [("code", writeInt32 code)]
  | .signal sig => tagged "kind" "signal" [("signal", writeInt32 sig)]
  | .knownError code message =>
      tagged "kind" "known_error" [("code", .string code), ("message", .string message)]
  | .spawnFailed error => tagged "kind" "spawn_failed" [("error", .string error)]
  | .timeout => tagged "kind" "timeout" []

def FailureReason.deserializeVariant (kind : String) (entries : Entries) : Option FailureReason :=
  match kind with
  | "non_zero_exit" => return .nonZeroExit (← field "code" readInt32 entries)
  | "signal" => return .signal (← field "signal" readInt32 entries)
  | "known_error" =>
      return .knownError (← field "code" readString entries)
        (← field "message" readString entries)
  | "spawn_failed" => return .spawnFailed (← field "error" readString entries)
  | "timeout" => return .timeout
  | _ => none

def FailureReason.deserialize : JsonTree → Option FailureReason :=
  readTagged "kind" deserializeVariant

/-- `tag = "kind", rename_all = "snake_case"`. -/
def Outcome.serialize : Outcome → Option JsonTree
  | .succeeded summary findings => do
      let findings ← findings.mapM Finding.serialize
      return tagged "kind" "succeeded"
        [("summary", writeOption .string summary), ("findings", .array findings)]
  | .failed reason summary findings => do
      let findings ← findings.mapM Finding.serialize
      return tagged "kind" "failed"
        [("reason", reason.serialize), ("summary", writeOption .string summary),
         ("findings", .array findings)]
  | .cancelled findings => do
      let findings ← findings.mapM Finding.serialize
      return tagged "kind" "cancelled" [("findings", .array findings)]

def Outcome.deserializeVariant (kind : String) (entries : Entries) : Option Outcome :=
  match kind with
  | "succeeded" =>
      return .succeeded (← optionalField "summary" readString entries)
        (← field "findings" (readList Finding.deserialize) entries)
  | "failed" =>
      return .failed (← field "reason" FailureReason.deserialize entries)
        (← optionalField "summary" readString entries)
        (← field "findings" (readList Finding.deserialize) entries)
  | "cancelled" =>
      return .cancelled (← field "findings" (readList Finding.deserialize) entries)
  | _ => none

def Outcome.deserialize : JsonTree → Option Outcome := readTagged "kind" deserializeVariant

/-! `event`. -/

/-- `rename_all = "lowercase"`. -/
def Stream.serialize : Stream → JsonTree
  | .stdout => .string "stdout"
  | .stderr => .string "stderr"

def Stream.deserialize (tree : JsonTree) : Option Stream := do
  match ← readUnitVariant tree with
  | "stdout" => some .stdout
  | "stderr" => some .stderr
  | _ => none

/-- The name of a variant under `rename_all = "snake_case"`, and its fields but
`job` and `at`. -/
def EventBody.serialize (text : UuidText) : EventBody → Option (String × Entries)
  | .jobCreated command => some ("job_created", [("command", command.serialize)])
  | .jobStarted pid => some ("job_started", [("pid", writeNat pid)])
  | .phaseEntered phase name label =>
      some ("phase_entered", [("phase", phase.serialize text), ("name", .string name),
        ("label", writeOption .string label)])
  | .phaseUpdated phase label =>
      some ("phase_updated", [("phase", phase.serialize text), ("label", .string label)])
  | .phaseExited phase => some ("phase_exited", [("phase", phase.serialize text)])
  | .progressUpdated progress => some ("progress_updated", [("progress", progress.serialize)])
  | .labelUpdated label => some ("label_updated", [("label", .string label)])
  | .outputAppended stream line =>
      some ("output_appended", [("stream", stream.serialize), ("line", .string line)])
  | .warningDetected code message =>
      some ("warning_detected",
        [("code", writeOption .string code), ("message", .string message)])
  | .knownErrorDetected code message =>
      some ("known_error_detected", [("code", .string code), ("message", .string message)])
  | .findingEmitted finding => do
      let finding ← finding.serialize
      return ("finding_emitted", [("finding", finding)])
  | .promptDetected prompt => some ("prompt_detected", [("prompt", .string prompt)])
  | .interpreterError interpreter error line =>
      some ("interpreter_error", [("interpreter", .string interpreter), ("error", .string error),
        ("line", writeOption .string line)])
  | .exited code => some ("exited", [("code", code.serialize)])
  | .finalized outcome => do
      let outcome ← outcome.serialize
      return ("finalized", [("outcome", outcome)])
  | .cancelled => some ("cancelled", [])

def EventBody.deserializeVariant (text : UuidText) (kind : String) (entries : Entries) :
    Option EventBody :=
  match kind with
  | "job_created" => return .jobCreated (← field "command" CommandSpec.deserialize entries)
  | "job_started" => return .jobStarted (← field "pid" readU32 entries)
  | "phase_entered" =>
      return .phaseEntered (← field "phase" (PhaseId.deserialize text) entries)
        (← field "name" readString entries) (← optionalField "label" readString entries)
  | "phase_updated" =>
      return .phaseUpdated (← field "phase" (PhaseId.deserialize text) entries)
        (← field "label" readString entries)
  | "phase_exited" =>
      return .phaseExited (← field "phase" (PhaseId.deserialize text) entries)
  | "progress_updated" =>
      return .progressUpdated (← field "progress" Progress.deserialize entries)
  | "label_updated" => return .labelUpdated (← field "label" readString entries)
  | "output_appended" =>
      return .outputAppended (← field "stream" Stream.deserialize entries)
        (← field "line" readString entries)
  | "warning_detected" =>
      return .warningDetected (← optionalField "code" readString entries)
        (← field "message" readString entries)
  | "known_error_detected" =>
      return .knownErrorDetected (← field "code" readString entries)
        (← field "message" readString entries)
  | "finding_emitted" => return .findingEmitted (← field "finding" Finding.deserialize entries)
  | "prompt_detected" => return .promptDetected (← field "prompt" readString entries)
  | "interpreter_error" =>
      return .interpreterError (← field "interpreter" readString entries)
        (← field "error" readString entries) (← optionalField "line" readString entries)
  | "exited" => return .exited (← field "code" ExitCode.deserialize entries)
  | "finalized" => return .finalized (← field "outcome" Outcome.deserialize entries)
  | "cancelled" => return .cancelled
  | _ => none

/-- `tag = "kind", rename_all = "snake_case"`. -/
def Event.serialize (text : UuidText) (e : Event) : Option JsonTree := do
  let (kind, fields) ← e.body.serialize text
  let time ← SystemTime.serialize e.time
  return tagged "kind" kind (("job", e.job.serialize text) :: fields ++ [("at", time)])

def Event.deserialize (text : UuidText) : JsonTree → Option Event :=
  readTagged "kind" fun kind entries => do
    return {
      job := ← field "job" (JobId.deserialize text) entries
      body := ← EventBody.deserializeVariant text kind entries
      time := ← field "at" SystemTime.deserialize entries }

end Execra
