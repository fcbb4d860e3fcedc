import Execra.Model.Runtime

/-!
The jobs a runtime knows (`runtime.rs`): those it was built with, those it has
accepted, and behind both the history. The map of the source lists its values in any
order; here they are listed as they were inserted, and what depends on the order takes
it as an argument.
-/

namespace Execra

namespace Runtime

/-- The snapshots in `inner.jobs`. -/
def snapshots (rt : Runtime) : List Job := rt.persisted ++ rt.jobs.map (fun e => e.sys.snapshot)

/-- `Runtime::job`. -/
def job (rt : Runtime) (id : JobId) : Option Job :=
  match rt.snapshots.find? (fun job => job.id = id) with
  | some job => some job
  | none => rt.store.bind (fun store => (store.loadJob id).toOption.join)

/-- `Runtime::running`. -/
def running (rt : Runtime) : List JobId :=
  (rt.snapshots.filter (fun job => job.state = .queued ∨ job.state = .running)).map Job.id

end Runtime

/-- `Runtime::recent`, of the values of the map. -/
def recent (values : List Job) (n : Nat) : List Job :=
  (values.insertionSort (fun a b => b.createdAt ≤ a.createdAt)).take n

end Execra
