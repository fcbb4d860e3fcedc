import Execra.Runtime.Permits
import Execra.Runtime.Rows

/-!
Recovery. A runtime may stop between any two steps; whatever it leaves in the
store, the next one finds rows of four states and finalizes those of the first
three, whose jobs nobody drives any more.
-/

namespace Execra

/-- A store that runtimes have worked on, one after the other, each from its
`build` until it was stopped. -/
inductive Store.Recorded : Store → Prop where
  | new : Recorded {}
  | run {found store : Store} {config : RuntimeConfig} {maxConcurrent : Nat}
      {start rt : Runtime} {ls : List RuntimeLabel} (hfound : Recorded found)
      (hbuild : Runtime.build config maxConcurrent (some found) = .ok start)
      (hrun : Transition.run Runtime.step start ls = some rt) (hstore : rt.store = some store) :
      Recorded store

/-- What `build` makes of a store. -/
theorem Runtime.build_ok {config : RuntimeConfig} {maxConcurrent : Nat} {found : Store}
    {start : Runtime} (h : Runtime.build config maxConcurrent (some found) = .ok start) :
    start.store = some found.resurrectStrandedJobs.1 ∧ start.jobs = [] := by
  unfold Runtime.build at h
  cases hjobs : found.resurrectStrandedJobs.1.listJobs 10000 {} with
  | error e => simp [hjobs, bind, Except.bind] at h
  | ok jobs =>
      simp only [hjobs, bind, Except.bind] at h
      cases h
      exact ⟨rfl, rfl⟩

theorem Store.Recorded.recoverable {store : Store} (h : store.Recorded) : store.Recoverable := by
  induction h with
  | new => exact fun row hrow => (List.not_mem_nil hrow).elim
  | @run found store config maxConcurrent start rt ls _ hbuild hrun hstore ih =>
      obtain ⟨hrecovered, hnone⟩ := Runtime.build_ok hbuild
      have hrows : ∀ store, start.store = some store → store.Recoverable := by
        intro store hstart
        rw [hrecovered] at hstart
        cases hstart
        exact ih.resurrect
      have hkept := Transition.invariant_of_run (P := fun _ _ => True)
        (I := fun rt => rt.Shares ∧ ∀ store, rt.store = some store → store.Recoverable)
        (fun rt l rt' h _ hstep =>
          ⟨(Runtime.step_move hstep).shares h.1, (Runtime.step_move hstep).recoverable h.1 h.2⟩)
        ⟨Runtime.shares_of_none hnone, hrows⟩
        (Transition.stepsMeet_of_forall (fun _ _ => trivial) _ _) hrun
      exact hkept.2 store hstore

theorem JobRow.resurrect_finalized {row : JobRow} (h : row.state = "finalized") :
    row.resurrect = row := by
  unfold JobRow.resurrect stranded
  rw [h]
  rfl

theorem JobRow.resurrect_stranded {row : JobRow} (h : row.stranded = true) :
    row.resurrect = { row with state := "finalized", outcomeJson := some ⟨hostExited⟩ } :=
  if_pos h

theorem JobRow.Recoverable.resurrect_state {row : JobRow} (h : row.Recoverable) :
    row.resurrect.state = "finalized" := by
  rcases h.stage with hstranded | hfinalized
  · rw [JobRow.resurrect_stranded hstranded]
  · rw [JobRow.resurrect_finalized hfinalized, hfinalized]

theorem mem_of_limited {α : Type} {limit : Nat} {rows : List α} {row : α}
    (h : row ∈ limited limit rows) : row ∈ rows := by
  unfold limited at h
  dsimp only at h
  split at h
  · exact h
  · exact List.mem_of_mem_take h

/-- A store that was written by upserts can be listed. -/
theorem Store.Recoverable.build {store : Store} (h : store.Recoverable) (config : RuntimeConfig)
    (maxConcurrent : Nat) : ∃ rt, Runtime.build config maxConcurrent (some store) = .ok rt ∧
      rt.store = some store.resurrectStrandedJobs.1 := by
  obtain ⟨jobs, hjobs⟩ : ∃ jobs, store.resurrectStrandedJobs.1.listJobs 10000 {} = .ok jobs := by
    refine mapM_ok (fun row hrow => ?_)
    have hmem := List.mem_of_mem_filter ((List.mem_insertionSort _).mp (mem_of_limited hrow))
    obtain ⟨job, hjob, -⟩ := (h.resurrect row hmem).toWritten.decode
    exact ⟨job, hjob⟩
  exact ⟨_, by simp only [Runtime.build, hjobs, bind, Except.bind]; rfl, rfl⟩

/-- Recovery finalizes the rows of all jobs that were not, and touches nothing
else; a second recovery finds nothing to do. -/
theorem stranded_jobs_recovered {store : Store} (h : store.Recorded) :
    let recovered := store.resurrectStrandedJobs.1
    (∀ config maxConcurrent, ∃ rt, Runtime.build config maxConcurrent (some store) = .ok rt ∧
      rt.store = some recovered) ∧
    (∀ row ∈ recovered.jobs, row.state = "finalized" ∧ row.outcomeJson.isSome) ∧
    List.Forall₂ (fun row row' =>
      (row.state = "finalized" → row' = row) ∧
      (row.state ≠ "finalized" → row' = { row with
        state := "finalized"
        outcomeJson := some ⟨.failed (.spawnFailed "host process exited") none []⟩ }))
      store.jobs recovered.jobs ∧
    recovered.events = store.events ∧ recovered.findings = store.findings ∧
    recovered.resurrectStrandedJobs = (recovered, 0) := by
  have hrows := h.recoverable
  have hfinal : ∀ row ∈ store.resurrectStrandedJobs.1.jobs, row.state = "finalized" := by
    intro row hrow
    obtain ⟨old, hold, rfl⟩ := List.mem_map.mp hrow
    exact (hrows old hold).resurrect_state
  refine ⟨hrows.build, fun row hrow => ⟨hfinal row hrow, ?_⟩, ?_, rfl, rfl, ?_⟩
  · exact (hrows.resurrect row hrow).outcome (hfinal row hrow)
  · refine List.forall₂_map_right_iff.mpr (List.forall₂_same.mpr (fun row hrow => ?_))
    refine ⟨JobRow.resurrect_finalized, fun hopen => ?_⟩
    exact JobRow.resurrect_stranded ((hrows row hrow).stage.resolve_right hopen)
  · have hsame : ∀ row ∈ store.resurrectStrandedJobs.1.jobs, row.resurrect = row :=
      fun row hrow => JobRow.resurrect_finalized (hfinal row hrow)
    have hnone : store.resurrectStrandedJobs.1.jobs.countP JobRow.stranded = 0 := by
      refine List.countP_eq_zero.mpr (fun row hrow => ?_)
      simp [JobRow.stranded, hfinal row hrow]
    generalize store.resurrectStrandedJobs.1 = recovered at hsame hnone
    rw [Store.resurrectStrandedJobs, hnone, List.map_congr_left hsame, List.map_id']

/-- A runtime with one permit and an empty history. -/
def storedRuntime : Runtime := .fromParts {} 1 (some {}) []

theorem storedSerial_runs :
    (Transition.run Runtime.step storedRuntime serialRun).isSome = true := by
  decide

def storedSerialEnd : Runtime := Transition.endOf _ _ serialRun storedSerial_runs

def serialStore : Store := storedSerialEnd.store.get (by decide)

/-- The runtime stops while one job is over and the other runs. -/
theorem stranded_jobs_recovered_serial :
    serialStore.jobs.map JobRow.state = ["finalized", "running"] ∧
    (∀ row ∈ serialStore.resurrectStrandedJobs.1.jobs,
      row.state = "finalized" ∧ row.outcomeJson.isSome) ∧
    serialStore.resurrectStrandedJobs.1.resurrectStrandedJobs =
      (serialStore.resurrectStrandedJobs.1, 0) := by
  have hrecorded : serialStore.Recorded :=
    @Store.Recorded.run {} serialStore {} 1 storedRuntime storedSerialEnd serialRun .new rfl
      (Transition.run_endOf storedRuntime serialRun storedSerial_runs) (Option.some_get _).symm
  obtain ⟨-, hfinal, -, -, -, hagain⟩ := stranded_jobs_recovered hrecorded
  exact ⟨by decide, hfinal, hagain⟩

end Execra
