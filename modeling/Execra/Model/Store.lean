import Execra.Model.Event
import Mathlib.Data.List.Basic

/-!
The SQLite store: one row per job, one row per persisted event and one per
finding. A column that holds JSON is a `Json` of the value that was
serialised, which is the assumption that `serde_json` round-trips; the tags
column is real text because queries match on it. A statement either takes
effect or fails without a trace, and the world decides which.
-/

namespace Execra

/-- Text produced by `serde_json::to_string`, identified with its value. -/
structure Json (α : Type) where
  value : α
deriving DecidableEq, Repr

/-! What `serde_json::to_string` writes. It refuses a time before the epoch, and with it
whatever holds one. It refuses a path that is not UTF-8 as well; the paths of this model
are text. -/

def SystemTime.serializes (t : SystemTime) : Bool := 0 ≤ t

def Finding.serializes (finding : Finding) : Bool := SystemTime.serializes finding.time

def Outcome.serializes : Outcome → Bool
  | .succeeded _ findings | .failed _ _ findings | .cancelled findings =>
      findings.all Finding.serializes

def EventBody.serializes : EventBody → Bool
  | .findingEmitted finding => finding.serializes
  | .finalized outcome => outcome.serializes
  | _ => true

def Event.serializes (event : Event) : Bool :=
  event.body.serializes && SystemTime.serializes event.time

def schemaVersion : Int := 0

/-- `d.as_millis() as i64`: the quotient keeps its low 64 bits. -/
def toMs (t : SystemTime) : Int :=
  if 0 ≤ t then Int.bmod (t / 1000000) (2 ^ 64) else 0

/-- The text of a JSON string literal as `serde_json` escapes it. -/
def jsonEscape (c : Char) : List Char :=
  if c = '"' then ['\\', '"']
  else if c = '\\' then ['\\', '\\']
  else if c.toNat = 8 then ['\\', 'b']
  else if c.toNat = 9 then ['\\', 't']
  else if c.toNat = 10 then ['\\', 'n']
  else if c.toNat = 12 then ['\\', 'f']
  else if c.toNat = 13 then ['\\', 'r']
  else if c.toNat < 32 then
    ['\\', 'u', '0', '0', Nat.digitChar (c.toNat / 16), Nat.digitChar (c.toNat % 16)]
  else [c]

def jsonString (s : String) : List Char :=
  '"' :: s.toList.flatMap jsonEscape ++ ['"']

/-- `serde_json::to_string(&tags)` for the tag list of a command. -/
def tagsJson (tags : List String) : String :=
  String.ofList ('[' :: List.intercalate [','] (tags.map jsonString) ++ [']'])

/-- `serde_json::to_string(&state)` without its quotes. -/
def JobState.toText : JobState → String
  | .queued => "queued"
  | .running => "running"
  | .exited => "exited"
  | .finalized => "finalized"
  | .cancelled => "cancelled"

def Severity.toText : Severity → String
  | .info => "info"
  | .recommendation => "recommendation"
  | .warning => "warning"
  | .error => "error"

/-- `store::event_kind`. -/
def EventBody.kind : EventBody → String
  | .jobCreated .. => "job_created"
  | .jobStarted .. => "job_started"
  | .phaseEntered .. => "phase_entered"
  | .phaseUpdated .. => "phase_updated"
  | .phaseExited .. => "phase_exited"
  | .progressUpdated .. => "progress_updated"
  | .labelUpdated .. => "label_updated"
  | .outputAppended .. => "output_appended"
  | .warningDetected .. => "warning_detected"
  | .knownErrorDetected .. => "known_error_detected"
  | .findingEmitted .. => "finding_emitted"
  | .promptDetected .. => "prompt_detected"
  | .interpreterError .. => "interpreter_error"
  | .exited .. => "exited"
  | .finalized .. => "finalized"
  | .cancelled => "cancelled"

structure JobRow where
  id : JobId
  commandJson : Json CommandSpec
  label : Option String
  tagsJson : String
  createdAtMs : Int
  startedAtMs : Option Int
  state : String
  exitCode : Option Int32
  exitSignal : Option Int32
  outcomeJson : Option (Json Outcome)
  schemaVersion : Int
deriving DecidableEq, Repr

structure EventRow where
  jobId : JobId
  atMs : Int
  kind : String
  payload : Json Event
  schemaVersion : Int
deriving DecidableEq, Repr

structure FindingRow where
  jobId : JobId
  atMs : Int
  code : String
  severity : String
  findingJson : Json Finding
deriving DecidableEq, Repr

/-- The three tables, each in row order. -/
structure Store where
  jobs : List JobRow := []
  events : List EventRow := []
  findings : List FindingRow := []
deriving DecidableEq, Repr

/-- The row of the `INSERT` of `upsert_job`. -/
def JobRow.ofJob (job : Job) : JobRow where
  id := job.id
  commandJson := ⟨job.command⟩
  label := job.label
  tagsJson := Execra.tagsJson job.command.tags
  createdAtMs := toMs job.createdAt
  startedAtMs := job.startedAt.map toMs
  state := job.state.toText
  exitCode := job.exit.bind ExitCode.code
  exitSignal := job.exit.bind ExitCode.signal
  outcomeJson := job.outcome.map Json.mk
  schemaVersion := Execra.schemaVersion

/-- The `ON CONFLICT(id) DO UPDATE` of `upsert_job`: six columns change. -/
def JobRow.conflict (old excluded : JobRow) : JobRow :=
  { old with
    label := excluded.label
    startedAtMs := excluded.startedAtMs
    state := excluded.state
    exitCode := excluded.exitCode
    exitSignal := excluded.exitSignal
    outcomeJson := excluded.outcomeJson }

/-- Upsert keyed by the primary key. -/
def upsertRow (row : JobRow) : List JobRow → List JobRow
  | [] => [row]
  | old :: rest =>
      if old.id = row.id then old.conflict row :: rest else old :: upsertRow row rest

/-- `Store::upsert_job`, when it is `Ok`. -/
def Store.upsertJob (store : Store) (job : Job) : Store :=
  { store with jobs := upsertRow (JobRow.ofJob job) store.jobs }

/-- The row stored for a job. -/
def Store.row (store : Store) (id : JobId) : Option JobRow :=
  store.jobs.find? (fun row => row.id = id)

def Store.insertEventRow (store : Store) (event : Event) : Store :=
  { store with
    events := store.events ++
      [{ jobId := event.job, atMs := toMs event.time, kind := event.body.kind,
         payload := ⟨event⟩, schemaVersion := Execra.schemaVersion }] }

def Store.insertFindingRow (store : Store) (job : JobId) (finding : Finding) : Store :=
  { store with
    findings := store.findings ++
      [{ jobId := job, atMs := toMs finding.time, code := finding.code,
         severity := finding.severity.toText, findingJson := ⟨finding⟩ }] }

/-- `Store::insert_event`, given which of its two statements succeed. An event without a
serialisation is an error before the first of them; with one, its finding has one too. The
returned flag is whether the call is `Ok`. -/
def Store.insertEvent (store : Store) (event : Event) (eventOk findingOk : Bool) :
    Store × Bool :=
  match event.body with
  | .outputAppended .. => (store, true)
  | .findingEmitted finding =>
      if event.serializes && eventOk then
        let stored := store.insertEventRow event
        if findingOk then (stored.insertFindingRow event.job finding, true)
        else (stored, false)
      else (store, false)
  | _ =>
      if event.serializes && eventOk then (store.insertEventRow event, true)
      else (store, false)

@[simp] theorem JobRow.ofJob_id (job : Job) : (JobRow.ofJob job).id = job.id := rfl

@[simp] theorem JobRow.conflict_id (old excluded : JobRow) :
    (old.conflict excluded).id = old.id := rfl

@[simp] theorem Store.insertEvent_jobs (store : Store) (event : Event) (a b : Bool) :
    (store.insertEvent event a b).1.jobs = store.jobs := by
  unfold Store.insertEvent
  cases event.serializes <;> cases a <;> cases b <;> cases event.body <;> rfl

@[simp] theorem Store.insertEvent_row (store : Store) (event : Event) (a b : Bool)
    (id : JobId) : (store.insertEvent event a b).1.row id = store.row id := by
  simp [Store.row]

/-- The row an upsert leaves, given the one it finds. -/
def JobRow.upserted (found : Option JobRow) (job : Job) : JobRow :=
  match found with
  | some old => old.conflict (JobRow.ofJob job)
  | none => JobRow.ofJob job

theorem find_upsertRow (job : Job) (rows : List JobRow) :
    (upsertRow (JobRow.ofJob job) rows).find? (fun r => r.id = job.id) =
      some (JobRow.upserted (rows.find? (fun r => r.id = job.id)) job) := by
  induction rows with
  | nil => simp [upsertRow, JobRow.upserted]
  | cons old rest ih =>
      by_cases h : old.id = job.id
      · simp [upsertRow, h, JobRow.upserted]
      · simpa [upsertRow, h] using ih

/-- After an upsert the job has the upserted row. -/
theorem Store.row_upsertJob (store : Store) (job : Job) :
    (store.upsertJob job).row job.id = some (JobRow.upserted (store.row job.id) job) :=
  find_upsertRow job store.jobs

@[simp] theorem JobRow.upserted_state (found : Option JobRow) (job : Job) :
    (JobRow.upserted found job).state = job.state.toText := by
  cases found <;> rfl

@[simp] theorem JobRow.upserted_outcomeJson (found : Option JobRow) (job : Job) :
    (JobRow.upserted found job).outcomeJson = job.outcome.map Json.mk := by
  cases found <;> rfl

end Execra
