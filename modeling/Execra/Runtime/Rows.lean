import Execra.Job.Snapshot
import Execra.Runtime.Jobs
import Execra.Store.Decode
import Execra.Store.Listing

/-!
The jobs table of a running runtime. A step of a job leaves the table alone or
upserts the snapshot of that job, and the snapshot is consistent whenever it can
be read. So every row that was ever written carries one of four states, and an
outcome if that is the last of them.
-/

namespace Execra

/-- What a step of a job does to the jobs table. -/
inductive Sys.Upserts (s t : Sys) : Prop where
  | kept (h : t.store.map Store.jobs = s.store.map Store.jobs)
  | upsert (store) (hs : s.store = some store) (ht : t.store = some (store.upsertJob s.snapshot))
      (hsnapshot : t.snapshot = s.snapshot)

private theorem insertEvent_upserts (s : Sys) (event : Event) (w : Oracle) :
    (s.insertEvent event w).store.map Store.jobs = s.store.map Store.jobs := by
  cases hstore : s.store <;> simp [Sys.insertEvent, hstore]

theorem Sys.act_upserts (cfg : Config) (w : Oracle) (o : Op) (s : Sys) :
    s.Upserts (s.act cfg w o).2 := by
  cases o with
  | insertEvent event => exact .kept (insertEvent_upserts s event w)
  | upsertSnapshot =>
      simp only [Sys.act]
      cases hstore : s.store with
      | none =>
          rw [Sys.upsertSnapshot_none hstore]
          exact .kept rfl
      | some store =>
          rw [Sys.upsertSnapshot_some hstore]
          split
          · exact .upsert store hstore rfl rfl
          · exact .kept rfl
  | openRawFile | spawnChild | writeRaw => simp only [Sys.act]; split <;> exact .kept rfl
  | _ => exact .kept rfl

theorem Sys.step_upserts {cfg : Config} {s t : Sys} {l : Label} (h : s.step cfg l = some t) :
    s.Upserts t := by
  cases Sys.step_move h with
  | driver hdriver =>
      cases hdriver with
      | op w o k hctl =>
          cases s.act_upserts cfg w o with
          | kept hkept => exact .kept hkept
          | upsert store hs ht hsnapshot => exact .upsert store hs ht hsnapshot
      | _ => exact .kept rfl
  | wait hwait =>
      cases hwait with
      | insert time w hpc => exact .kept (insertEvent_upserts s (cancelledEvent cfg time) w)
      | _ => exact .kept rfl
  | world hworld => exact .kept (by rw [hworld.tasks.store])

/-! The rows. -/

/-- A row that recovery knows what to do with. -/
structure JobRow.Recoverable (row : JobRow) : Prop extends JobRow.Written row where
  stage : row.stranded = true ∨ row.state = "finalized"
  outcome : row.state = "finalized" → row.outcomeJson.isSome

/-- The state of a row a consistent snapshot was written to. -/
theorem JobRow.stage_of_job {row : JobRow} {job : Job} (hjob : job.Consistent)
    (hstate : row.state = job.state.toText) : row.stranded = true ∨ row.state = "finalized" := by
  have hwritten := hjob.written
  rw [stranded, hstate]
  cases hj : job.state <;>
    first | exact Or.inl rfl | exact Or.inr rfl | exact absurd hj hwritten

theorem JobRow.Written.recoverable {row : JobRow} (h : row.Written) {job : Job}
    (hjob : job.Consistent) (hstate : row.state = job.state.toText)
    (houtcome : row.outcomeJson = job.outcome.map Json.mk) : row.Recoverable := by
  refine ⟨h, JobRow.stage_of_job hjob hstate, fun hfinalized => ?_⟩
  have hfinal : job.state = .finalized := by
    rw [hstate] at hfinalized
    cases hj : job.state <;> rw [hj] at hfinalized <;>
      first | rfl | simp [JobState.toText] at hfinalized
  rw [houtcome, Option.isSome_map]
  exact hjob.outcome.mpr hfinal

theorem JobRow.Recoverable.resurrect {row : JobRow} (h : row.Recoverable) :
    row.resurrect.Recoverable := by
  unfold JobRow.resurrect
  split
  · exact ⟨⟨h.tags, h.schema, ⟨.finalized, rfl⟩⟩, Or.inr rfl, fun _ => rfl⟩
  · exact h

def Store.Recoverable (store : Store) : Prop := ∀ row ∈ store.jobs, row.Recoverable

theorem Store.Recoverable.upsertJob {store : Store} (h : store.Recoverable) {job : Job}
    (hjob : job.Consistent) : (store.upsertJob job).Recoverable := by
  intro row hrow
  rcases mem_upsertRow hrow with hrow | rfl | ⟨old, hold, rfl⟩
  · exact h row hrow
  · exact (JobRow.written_ofJob job).recoverable hjob rfl rfl
  · exact ((h old hold).toWritten.conflict job).recoverable hjob rfl rfl

theorem Store.Recoverable.resurrect {store : Store} (h : store.Recoverable) :
    store.resurrectStrandedJobs.1.Recoverable := by
  intro row hrow
  obtain ⟨old, hold, rfl⟩ := List.mem_map.mp hrow
  exact (h old hold).resurrect

theorem Config.initialJob_consistent (cfg : Config) : cfg.initialJob.Consistent :=
  ⟨nofun, by simp [Config.initialJob], nofun, nofun⟩

theorem Entry.Runs.consistent {e : Entry} (h : e.Runs) : e.sys.snapshot.Consistent := by
  obtain ⟨store, -, hs⟩ := h
  exact hs.readable.1

/-- The store of a runtime after a step: rows kept, or one upserted from a
consistent snapshot. -/
theorem Runtime.Move.recoverable {rt rt' : Runtime} {l : RuntimeLabel} (h : rt.Move l rt')
    (hshares : rt.Shares) (hrows : ∀ store, rt.store = some store → store.Recoverable) :
    ∀ store, rt'.store = some store → store.Recoverable := by
  have hjob : ∀ {i : Nat} {e : Entry} {l : Label} {s : Sys}, rt.jobs[i]? = some e →
      (e.sys.withStore rt.store).step e.cfg l = some s →
      ∀ store, s.store = some store → store.Recoverable := by
    intro i e l s he hstep store hstore
    cases Sys.step_upserts hstep with
    | kept hkept =>
        rw [hstore] at hkept
        obtain ⟨old, hold, hsame⟩ := Option.map_eq_some_iff.mp hkept.symm
        intro row hrow
        exact hrows old hold row (hsame ▸ hrow)
    | upsert old hold hnew =>
        rw [hstore] at hnew
        cases hnew
        exact (hrows old hold).upsertJob (hshares e (List.mem_of_getElem? he)).2.consistent
  cases h with
  | refuse | release => exact hrows
  | spawn cfg upsertOk hfresh =>
      intro store hstore
      obtain ⟨old, hold, rfl⟩ := Option.map_eq_some_iff.mp hstore
      exact (hrows old hold).upsertJob (Config.initialJob_consistent _)
  | acquire i e w s he hctl hfree hstep => exact hjob he hstep
  | job i e l s he hctl hstep => exact hjob he hstep
  | openHistory old hold =>
      intro store hstore
      cases hstore
      exact (hrows old hold).resurrect

end Execra
