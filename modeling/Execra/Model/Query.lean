import Execra.Foundation.Like
import Execra.Model.Store
import Mathlib.Data.List.Sort

/-!
Reading the store back: `load_job`, `list_jobs`, `list_events`, the recovery
statement `resurrect_stranded_jobs`, and the query that is resolved against
the store when there is one and against the runtime's snapshots when there is
not. Text a column holds is decoded, and decoding can fail.

A statement that reads or the recovery itself may fail at the database; such a
failure is an error of the call and leaves the store as it was, so only the
calls that succeed are modelled. The one failure that the arguments of a call
decide is modelled: a pattern that is too long for `LIKE`.
-/

namespace Execra

/-- The errors a reading can end in: a pattern that SQLite refuses, text that is
no `JobState`, and a row of a newer schema. -/
inductive StoreError where
  | sqlite (message : String)
  | serde (text : String)
  | unsupportedSchemaVersion (found supported : Int)
deriving DecidableEq, Repr

def checkSchemaVersion (found : Int) : Except StoreError Unit :=
  if found > schemaVersion then .error (.unsupportedSchemaVersion found schemaVersion)
  else .ok ()

/-- `UNIX_EPOCH + Duration::from_millis(ms.max(0) as u64)`. -/
def fromMs (ms : Int) : SystemTime := max ms 0 * 1000000

/-- `serde_json::from_str::<JobState>` of the quoted text. The text is one that `upsert_job`
or the recovery wrote, in which nothing is escaped; the escapes that another hand could have
put into it are not read. -/
def JobState.ofText (text : String) : Except StoreError JobState :=
  if text = "queued" then .ok .queued
  else if text = "running" then .ok .running
  else if text = "exited" then .ok .exited
  else if text = "finalized" then .ok .finalized
  else if text = "cancelled" then .ok .cancelled
  else .error (.serde text)

/-- An `INTEGER` column written from an `i32` is read as an `i64` and narrowed. -/
def narrowed (column : Int32) : Int32 := column.toInt64.toInt32

/-- `store::build_job`. -/
def buildJob (row : JobRow) : Except StoreError Job := do
  let state ← JobState.ofText row.state
  return {
    id := row.id
    command := row.commandJson.value
    createdAt := fromMs row.createdAtMs
    startedAt := row.startedAtMs.map fromMs
    state
    currentPhase := none
    progress := .unknown
    label := row.label
    exit :=
      if row.exitCode.isSome || row.exitSignal.isSome then
        some { code := row.exitCode.map narrowed, signal := row.exitSignal.map narrowed }
      else none
    outcome := row.outcomeJson.map Json.value }

/-- A row checked for its schema version and decoded. -/
def JobRow.decode (row : JobRow) : Except StoreError Job := do
  checkSchemaVersion row.schemaVersion
  buildJob row

/-- `Store::load_job`. -/
def Store.loadJob (store : Store) (id : JobId) : Except StoreError (Option Job) :=
  match store.row id with
  | none => .ok none
  | some row => do return some (← row.decode)

/-- `LIMIT ?` with `limit as i64`: a negative limit is none. -/
def limited {α : Type} (limit : Nat) (rows : List α) : List α :=
  let n := Int.bmod limit (2 ^ 64)
  if n < 0 then rows else rows.take n.toNat

structure JobsFilter where
  tag : Option String := none
  state : Option JobState := none
  createdAfter : Option SystemTime := none
  createdBefore : Option SystemTime := none
deriving DecidableEq, Repr

/-! SQLite's `LIKE` without `ESCAPE`. -/

/-- Where `LIKE` stops to read its pattern and its text. -/
def beforeNul (text : List Char) : List Char := text.takeWhile (· ≠ '\x00')

/-- `sqlite3Utf8Read` gives the replacement character for U+FFFE and U+FFFF. -/
def readChar (c : Char) : Char :=
  if c.toNat = 0xFFFE ∨ c.toNat = 0xFFFF then '\uFFFD' else c

/-- Letters of the ASCII range are compared without their case. -/
def foldCase (c : Char) : Char := if 'A' ≤ c ∧ c ≤ 'Z' then Char.ofNat (c.toNat + 32) else c

def sameLetter (a b : Char) : Bool := foldCase (readChar a) = foldCase (readChar b)

def likeToken (c : Char) : Like.Token Char :=
  if c = '%' then .many else if c = '_' then .one else .lit c

def like (pattern text : List Char) : Bool :=
  Like.matchAll sameLetter ((beforeNul pattern).map likeToken) (beforeNul text)

/-- `SQLITE_MAX_LIKE_PATTERN_LENGTH`, a number of bytes. -/
def maxLikePatternLength : Nat := 50000

/-- `LIKE` refuses a pattern that is longer. -/
def tooComplex (pattern : List Char) : Bool :=
  maxLikePatternLength < pattern.foldl (fun size c => size + c.utf8Size) 0

/-- `tag.replace('"', "\\\"")`. -/
def replaceQuotes (tag : List Char) : List Char :=
  tag.flatMap (fun c => if c = '"' then ['\\', '"'] else [c])

/-- `format!("%\"{}\"%", ..)`. -/
def tagPattern (tag : String) : List Char :=
  '%' :: '"' :: replaceQuotes tag.toList ++ ['"', '%']

/-- The `WHERE` clause of `list_jobs`. -/
def JobsFilter.admits (filter : JobsFilter) (row : JobRow) : Bool :=
  filter.state.all (fun state => row.state = state.toText) &&
    filter.createdAfter.all (fun after => toMs after ≤ row.createdAtMs) &&
    filter.createdBefore.all (fun before => row.createdAtMs ≤ toMs before) &&
    filter.tag.all (fun tag => like (tagPattern tag) row.tagsJson.toList)

/-- `ORDER BY created_at_ms DESC`; rows with equal times keep their order. -/
def newestFirst (rows : List JobRow) : List JobRow :=
  rows.insertionSort (fun a b => b.createdAtMs ≤ a.createdAtMs)

/-- The statement of `list_jobs` comes to its `LIKE`, for a row that the clauses before it
let pass, and `LIKE` refuses the pattern. With a limit of 0 it looks at no row. -/
def JobsFilter.refused (filter : JobsFilter) (limit : Nat) (rows : List JobRow) : Bool :=
  filter.tag.any (fun tag => tooComplex (tagPattern tag)) && limit != 0 &&
    rows.any { filter with tag := none }.admits

/-- `Store::list_jobs`. -/
def Store.listJobs (store : Store) (limit : Nat) (filter : JobsFilter) :
    Except StoreError (List Job) :=
  if filter.refused limit store.jobs then .error (.sqlite "LIKE or GLOB pattern too complex")
  else (limited limit (newestFirst (store.jobs.filter filter.admits))).mapM JobRow.decode

/-- The payload of a row of the events table. -/
def EventRow.decode (row : EventRow) : Except StoreError Event := do
  checkSchemaVersion row.schemaVersion
  return row.payload.value

/-- `Store::list_events`: the row order of the table is the order of its ids. -/
def Store.listEvents (store : Store) (job : JobId) (limit : Nat) :
    Except StoreError (List Event) :=
  (limited limit (store.events.filter (fun row => row.jobId = job))).mapM EventRow.decode

/-- The outcome recovery writes. -/
def hostExited : Outcome := .failed (.spawnFailed "host process exited") none []

/-- `WHERE state IN ('queued', 'running', 'exited')`. -/
def JobRow.stranded (row : JobRow) : Bool := ["queued", "running", "exited"].contains row.state

def JobRow.resurrect (row : JobRow) : JobRow :=
  if row.stranded then { row with state := "finalized", outcomeJson := some ⟨hostExited⟩ }
  else row

/-- `Store::resurrect_stranded_jobs`: the store after the `UPDATE`, and how many
rows it has changed. -/
def Store.resurrectStrandedJobs (store : Store) : Store × Nat :=
  ({ store with jobs := store.jobs.map JobRow.resurrect }, store.jobs.countP JobRow.stranded)

structure JobsQuery where
  tag : Option String := none
  state : Option JobState := none
  createdAfter : Option SystemTime := none
  createdBefore : Option SystemTime := none
  limit : Option Nat := none
deriving DecidableEq, Repr

/-- `JobsQuery::matches`. -/
def JobsQuery.matches (query : JobsQuery) (job : Job) : Bool :=
  query.state.all (fun state => job.state = state) &&
    query.createdAfter.all (fun after => after ≤ job.createdAt) &&
    query.createdBefore.all (fun before => job.createdAt ≤ before) &&
    query.tag.all (fun tag => job.command.tags.any (· = tag))

/-! Reading back what was written. -/

@[simp] theorem JobsFilter.refused_untagged {filter : JobsFilter} (h : filter.tag = none)
    (limit : Nat) (rows : List JobRow) : filter.refused limit rows = false := by
  simp [JobsFilter.refused, h]

/-- A filter that asks for no tag is not refused. -/
theorem Store.listJobs_untagged (store : Store) (limit : Nat) {filter : JobsFilter}
    (h : filter.tag = none) : store.listJobs limit filter =
      (limited limit (newestFirst (store.jobs.filter filter.admits))).mapM JobRow.decode := by
  rw [Store.listJobs, JobsFilter.refused_untagged h, if_neg Bool.false_ne_true]

@[simp] theorem checkSchemaVersion_current : checkSchemaVersion schemaVersion = .ok () := rfl

@[simp] theorem JobState.ofText_toText (state : JobState) :
    JobState.ofText state.toText = .ok state := by
  cases state <;> rfl

@[simp] theorem narrowed_eq (column : Int32) : narrowed column = column :=
  Int32.toInt32_toInt64 column

/-- A limit no smaller than the number of rows is no limit. -/
theorem limited_of_length_le {α : Type} {limit : Nat} {rows : List α} (hword : limit < 2 ^ 64)
    (h : rows.length ≤ limit) : limited limit rows = rows := by
  unfold limited
  simp only
  split
  · rfl
  · next hpos =>
      refine List.take_of_length_le ?_
      have hmod : (limit : Int) % (2 ^ 64 : Nat) = limit :=
        Int.emod_eq_of_lt (by omega) (by exact_mod_cast hword)
      have hsmall : Int.bmod limit (2 ^ 64) = limit := by
        rw [Int.bmod_def, hmod] at hpos ⊢
        split at hpos
        · next hlow => rw [if_pos hlow]
        · omega
      omega

theorem Store.row_resurrect (store : Store) (id : JobId) :
    store.resurrectStrandedJobs.1.row id = (store.row id).map JobRow.resurrect := by
  unfold Store.row Store.resurrectStrandedJobs
  induction store.jobs with
  | nil => rfl
  | cons row rows ih =>
      have hid : row.resurrect.id = row.id := by
        unfold JobRow.resurrect
        split <;> rfl
      by_cases h : row.id = id <;> simp_all

end Execra
