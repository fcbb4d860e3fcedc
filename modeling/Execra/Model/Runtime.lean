import Execra.Model.Machine
import Execra.Model.Query

/-!
The runtime around its jobs. The jobs share one store, and the driver of each
takes a permit of one semaphore before it does anything of its own. A step of
the runtime is a step of one job, made on the store as the other jobs have left
it, or one of the few acts that no job performs: a call of `spawn`, the release
of a permit, and another process that builds a runtime on the same history, which
recovers it. Nobody else writes to the history in any other way.

The semaphore hands its permits out in the order in which they were asked for.
Here any driver that waits may take a free one, so the runs of the model include
the fair ones. Each job keeps a clock of its own, since instants are only ever
compared within one job.
-/

namespace Execra

/-- What has become of the permit of a job: its driver waits for one, holds it
in `_permit`, or has returned and dropped it. -/
inductive Permit where
  | waiting | held | released
deriving DecidableEq, Repr

/-- A job the runtime has accepted. The store in `sys` is the one the last step
of this job has left; its next step begins with the runtime's. -/
structure Entry where
  cfg : Config
  sys : Sys
  permit : Permit := .waiting

/-- `runtime::Inner`. `permits` counts the free permits of the semaphore,
`persisted` are the jobs that were loaded from the history. -/
structure Runtime where
  config : RuntimeConfig
  store : Option Store
  permits : Nat
  persisted : List Job := []
  jobs : List Entry := []

namespace Runtime

/-- `Runtime::from_parts`. -/
def fromParts (config : RuntimeConfig) (maxConcurrent : Nat) (store : Option Store)
    (persisted : List Job) : Runtime where
  config
  store
  permits := max maxConcurrent 1
  persisted

/-- `RuntimeBuilder::build`, once its configuration is put together. The history
is the store `Store::open` finds. -/
def build (config : RuntimeConfig) (maxConcurrent : Nat) (history : Option Store) :
    Except StoreError Runtime :=
  match history with
  | none => return fromParts config maxConcurrent none []
  | some found => do
      let store := found.resurrectStrandedJobs.1
      let jobs ← store.listJobs 10000 {}
      return fromParts config maxConcurrent (some store) jobs

/-- The id belongs to a job this runtime or its store knows. -/
def knows (rt : Runtime) (id : JobId) : Bool :=
  rt.jobs.any (fun e => e.cfg.id = id) || rt.persisted.any (fun job => job.id = id) ||
    rt.store.any (fun store => (store.row id).isSome)

/-- The job a call of `spawn` makes. -/
def accept (rt : Runtime) (cfg : Config) : Entry where
  cfg := { cfg with runtime := rt.config, store := rt.store }
  sys := Sys.init { cfg with runtime := rt.config, store := rt.store }

/-- `Runtime::spawn`, up to the point where the job is known to the runtime. The
call returns the error of the first upsert, if that fails, and forgets the
job. -/
def spawn (rt : Runtime) (cfg : Config) (upsertOk : Bool) : Runtime :=
  if rt.store.isSome && !upsertOk then rt
  else { rt with store := (rt.accept cfg).sys.store, jobs := rt.jobs ++ [rt.accept cfg] }

end Runtime

/-- The driver is about to acquire its permit. -/
def Ctl.acquires : Ctl → Bool
  | .run (.op .acquirePermit _) => true
  | _ => false

/-- `drive_job` has returned. -/
def Ctl.isReturned : Ctl → Bool
  | .returned => true
  | _ => false

def Label.isDriver : Label → Bool
  | .driver _ => true
  | _ => false

inductive RuntimeLabel where
  /-- A call of `spawn`. Of `cfg` the command, the time and the fresh ids count;
  the configuration and the store are the runtime's. -/
  | spawn (cfg : Config) (upsertOk : Bool)
  /-- A step of job `i`. -/
  | job (i : Nat) (l : Label)
  /-- The driver of job `i` has returned, and its permit is dropped. -/
  | release (i : Nat)
  /-- Another process builds a runtime on the same history. It is all that others do to it
  while this runtime lives: none of them runs a job of its own there. -/
  | openHistory

/-- The job with another store. -/
@[simps] def Sys.withStore (s : Sys) (store : Option Store) : Sys := { s with store }

namespace Runtime

/-- A step of job `i`, on the store of the runtime. -/
def stepEntry (rt : Runtime) (i : Nat) (e : Entry) (l : Label) (permit : Permit) :
    Option Runtime :=
  ((e.sys.withStore rt.store).step e.cfg l).map (fun sys =>
    { rt with store := sys.store, jobs := rt.jobs.set i { e with sys, permit } })

def step (rt : Runtime) : RuntimeLabel → Option Runtime
  -- `JobId::new` returns an id that no job has had.
  | .spawn cfg upsertOk => if rt.knows cfg.id then none else some (rt.spawn cfg upsertOk)
  | .job i l =>
      match rt.jobs[i]? with
      | none => none
      | some e =>
          if l.isDriver && e.sys.ctl.acquires then
            if rt.permits = 0 then none
            else { rt with permits := rt.permits - 1 }.stepEntry i e l .held
          else rt.stepEntry i e l e.permit
  | .release i =>
      match rt.jobs[i]? with
      | none => none
      | some e =>
          if e.sys.ctl.isReturned ∧ e.permit = .held then
            some { rt with
              permits := rt.permits + 1
              jobs := rt.jobs.set i { e with permit := .released } }
          else none
  | .openHistory =>
      rt.store.map (fun store => { rt with store := some store.resurrectStrandedJobs.1 })

/-- The states of a runtime along all its runs. -/
def Reachable (start rt : Runtime) : Prop := Transition.Reachable step start rt

end Runtime

end Execra
