import Execra.Model.Cli
import Execra.Store.Queries

/-!
`execra tail` and `execra ls` (`main.rs` of the command line): two readings of a history.
`tail` opens the store alone; `ls` builds a runtime on it, and with that recovers it. Its
query is a statement of its own, before which other processes may have written. The debug
texts that both print without `--json` are left out: what is listed is the same.
-/

namespace Execra

/-- `tail --json`, once its id is parsed and its store opened: an object for each event. -/
def tail (store : Store) (job : JobId) (limit : Nat) : Except StoreError (List Printed) := do
  let events ← store.listEvents job limit
  return events.map .object

inductive CliError where
  | store (error : StoreError)
  | unknownJobState (other : String)
deriving DecidableEq, Repr

/-- `parse_job_state`. -/
def parseJobState (state : String) : Except CliError JobState :=
  if state = "queued" then .ok .queued
  else if state = "running" then .ok .running
  else if state = "exited" then .ok .exited
  else if state = "finalized" then .ok .finalized
  else if state = "cancelled" then .ok .cancelled
  else .error (.unknownJobState state)

structure LsArgs where
  tag : Option String := none
  state : Option String := none
  limit : Nat := 50
deriving DecidableEq, Repr

/-- The state filter of `ls`. -/
def LsArgs.parseState (args : LsArgs) : Except CliError (Option JobState) :=
  match args.state with
  | none => .ok none
  | some state => (parseJobState state).map some

/-- What another process does to a history it shares. -/
inductive Statement where
  | upsertJob (job : Job)
  | insertEvent (event : Event) (eventOk findingOk : Bool)
  | resurrectStrandedJobs

def Store.exec (store : Store) : Statement → Store
  | .upsertJob job => store.upsertJob job
  | .insertEvent event eventOk findingOk => (store.insertEvent event eventOk findingOk).1
  | .resurrectStrandedJobs => store.resurrectStrandedJobs.1

/-- The statement writes the row of a job. -/
def Statement.writes (id : JobId) : Statement → Bool
  | .upsertJob job => job.id = id
  | _ => false

/-- `ls`: the jobs that are printed, a line or an object for each, and the runtime that
was built for it. The state is parsed when the history was recovered. `meanwhile` is what
other processes do between the recovery and the query. -/
def ls (config : RuntimeConfig) (maxConcurrent : Nat) (history : Store)
    (meanwhile : List Statement) (args : LsArgs) : Except CliError (Runtime × List Job) :=
  match Runtime.build config maxConcurrent (some history) with
  | .error error => .error (.store error)
  | .ok rt =>
      match args.parseState with
      | .error error => .error error
      | .ok state =>
          let query : JobsQuery := { tag := args.tag, state, limit := some args.limit }
          match query.run (rt.store.map (meanwhile.foldl Store.exec)) rt.persisted with
          | .error error => .error (.store error)
          | .ok jobs => .ok (rt, jobs)

end Execra
