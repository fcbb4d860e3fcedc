import Execra.Model.Machine
import Execra.Model.Query

/-!
Jobs written and read back. An upsert writes eleven columns the first time and
six afterwards, and `build_job` decodes what is left of them. Two values do not
survive: an exit code without code and signal, which the driver records when
waiting for the child fails, has the columns of no exit code at all, and a time
whose milliseconds need more than 63 bits is another time when it is read.
-/

namespace Execra

/-- A time truncated to the millisecond. -/
def truncMs (t : SystemTime) : SystemTime := t / 1000000 * 1000000

/-- The job that a first and a last upsert stand for. -/
def Job.storedAs (first last : Job) : Job where
  id := last.id
  command := first.command
  createdAt := truncMs first.createdAt
  startedAt := last.startedAt.map truncMs
  state := last.state
  currentPhase := none
  progress := .unknown
  label := last.label
  exit := last.exit
  outcome := last.outcome

/-! The row. -/

theorem Store.row_upsertJob_of_ne (store : Store) {job : Job} {id : JobId} (h : job.id ≠ id) :
    (store.upsertJob job).row id = store.row id := by
  unfold Store.row Store.upsertJob
  induction store.jobs with
  | nil => simp [upsertRow, h]
  | cons old rest ih =>
      by_cases hold : old.id = job.id
      · simp [upsertRow, hold, h]
      · by_cases hid : old.id = id <;> simp_all [upsertRow]

/-- Only the upserts of a job touch its row, each as the row it finds tells it. -/
theorem Store.row_foldl_upsertJob (store : Store) (id : JobId) (jobs : List Job) :
    (jobs.foldl Store.upsertJob store).row id =
      (jobs.filter (fun job => job.id = id)).foldl
        (fun found job => some (JobRow.upserted found job)) (store.row id) := by
  induction jobs generalizing store with
  | nil => rfl
  | cons job rest ih =>
      rw [List.foldl_cons, ih]
      by_cases hjob : job.id = id
      · subst hjob
        rw [Store.row_upsertJob]
        simp
      · rw [store.row_upsertJob_of_ne hjob]
        simp [hjob]

/-- A row that was inserted and then updated: the columns of the conflict clause
are those of the last upsert, the others those of the first. -/
theorem JobRow.foldl_upserted {first last : Job} {rest : List Job}
    (hlast : (first :: rest).getLast? = some last) :
    (first :: rest).foldl (fun found job => some (JobRow.upserted found job)) none =
      some ((JobRow.ofJob first).conflict (JobRow.ofJob last)) := by
  induction rest using List.reverseRecOn generalizing last with
  | nil =>
      cases hlast
      rfl
  | append_singleton rest job ih =>
      rw [← List.cons_append] at hlast ⊢
      rw [List.getLast?_concat] at hlast
      cases hlast
      obtain ⟨before, hbefore⟩ : ∃ before, (first :: rest).getLast? = some before :=
        ⟨_, List.getLast?_eq_getLast_of_ne_nil (List.cons_ne_nil first rest)⟩
      rw [List.foldl_append, ih hbefore]
      rfl

/-! The columns. -/

/-- A quotient of at most 63 bits survives the cast, any other one does not. -/
theorem max_bmod_eq_iff {q : Int} (hq : 0 ≤ q) :
    max (Int.bmod q (2 ^ 64)) 0 = q ↔ q < 2 ^ 63 := by
  have hlt : Int.bmod q (2 ^ 64) < 2 ^ 63 := Int.bmod_lt (by decide)
  constructor
  · intro h
    omega
  · intro h
    have hsmall : Int.bmod q (2 ^ 64) = q := Int.bmod_eq_of_le (by omega) (by omega)
    rw [hsmall, max_eq_left hq]

/-- Milliseconds that fit an `i64` are read back as they were written. -/
theorem fromMs_toMs_iff {t : SystemTime} (ht : 0 ≤ t) :
    fromMs (toMs t) = truncMs t ↔ t / 1000000 < 2 ^ 63 := by
  have hms : 0 ≤ t / 1000000 := Int.ediv_nonneg ht (by decide)
  rw [← max_bmod_eq_iff hms, fromMs, toMs, truncMs, if_pos ht]
  exact Int.mul_eq_mul_right_iff (by decide)

/-- The columns of an exit code tell the exit code, unless they are both null. -/
theorem exit_of_columns_iff (exit : Option ExitCode) :
    (if (exit.bind ExitCode.code).isSome || (exit.bind ExitCode.signal).isSome then
        some ({ code := (exit.bind ExitCode.code).map narrowed,
                signal := (exit.bind ExitCode.signal).map narrowed } : ExitCode)
      else none) = exit ↔ exit ≠ some { code := none, signal := none } := by
  rcases exit with _ | ⟨_ | code, _ | signal⟩ <;> simp

/-- What is decoded from the row of a first and a last upsert. -/
theorem JobRow.decode_conflict (first last : Job) :
    ((JobRow.ofJob first).conflict (JobRow.ofJob last)).decode =
      .ok { first.storedAs last with
        id := first.id
        createdAt := fromMs (toMs first.createdAt)
        startedAt := last.startedAt.map (fun t => fromMs (toMs t))
        exit :=
          if (last.exit.bind ExitCode.code).isSome || (last.exit.bind ExitCode.signal).isSome then
            some { code := (last.exit.bind ExitCode.code).map narrowed
                   signal := (last.exit.bind ExitCode.signal).map narrowed }
          else none } := by
  have hstarted : (last.startedAt.map toMs).map fromMs =
      last.startedAt.map (fun t => fromMs (toMs t)) := Option.map_map ..
  have houtcome : (last.outcome.map Json.mk).map Json.value = last.outcome := by
    cases last.outcome <;> rfl
  unfold JobRow.decode buildJob
  simp only [JobRow.conflict, JobRow.ofJob, checkSchemaVersion_current, JobState.ofText_toText,
    Job.storedAs, hstarted, houtcome]
  rfl

/-- `load_job` returns the command and the creation time of the first upsert
and the rest of the last one, times to the millisecond, exactly when the last
upsert's exit code is not the empty one and the milliseconds of the two times
fit their columns. -/
theorem load_job_is_last_upsert {store : Store} {id : JobId} {jobs : List Job} {first last : Job}
    (hfresh : store.row id = none)
    (hfirst : (jobs.filter (fun job => job.id = id)).head? = some first)
    (hlast : (jobs.filter (fun job => job.id = id)).getLast? = some last)
    (hcreated : 0 ≤ first.createdAt) (hstarted : ∀ t ∈ last.startedAt, 0 ≤ t) :
    (jobs.foldl Store.upsertJob store).loadJob id = .ok (some (first.storedAs last)) ↔
      last.exit ≠ some { code := none, signal := none } ∧
        first.createdAt / 1000000 < 2 ^ 63 ∧ ∀ t ∈ last.startedAt, t / 1000000 < 2 ^ 63 := by
  obtain ⟨rest, hwritten⟩ : ∃ rest, jobs.filter (fun job => job.id = id) = first :: rest :=
    List.head?_eq_some_iff.mp hfirst
  have hfirstId : first.id = id := by
    have hmem : first ∈ jobs.filter (fun job => job.id = id) := List.mem_of_mem_head? hfirst
    simpa using (List.mem_filter.mp hmem).2
  have hlastId : last.id = id := by
    have hmem : last ∈ jobs.filter (fun job => job.id = id) := List.mem_of_getLast? hlast
    simpa using (List.mem_filter.mp hmem).2
  have hrow : (jobs.foldl Store.upsertJob store).row id =
      some ((JobRow.ofJob first).conflict (JobRow.ofJob last)) := by
    rw [Store.row_foldl_upsertJob, hfresh, hwritten]
    exact JobRow.foldl_upserted (hwritten ▸ hlast)
  have hstart : last.startedAt.map (fun t => fromMs (toMs t)) = last.startedAt.map truncMs ↔
      ∀ t ∈ last.startedAt, t / 1000000 < 2 ^ 63 := by
    cases hat : last.startedAt with
    | none => simp
    | some t =>
        have ht : 0 ≤ t := hstarted t hat
        simpa using fromMs_toMs_iff ht
  rw [Store.loadJob, hrow]
  simp only [JobRow.decode_conflict]
  change Except.ok (some _) = Except.ok (some _) ↔ _
  rw [← exit_of_columns_iff, ← fromMs_toMs_iff hcreated, ← hstart, Except.ok.injEq,
    Option.some.injEq, Job.storedAs, Job.mk.injEq, hfirstId, hlastId]
  tauto

def createdJob : Job :=
  Config.initialJob { id := ⟨7⟩, spec := { program := "tool" }, createdAt := 5250000 }

def startedJob : Job := (SnapshotUpdate.running 6750000).apply createdJob

def exitedJob : Job := (SnapshotUpdate.exited { code := some 3, signal := none }).apply startedJob

theorem load_job_is_last_upsert_exited :
    ([createdJob, plainConfig.initialJob, startedJob, exitedJob].foldl Store.upsertJob {}).loadJob
      ⟨7⟩ = .ok (some (createdJob.storedAs exitedJob)) :=
  (load_job_is_last_upsert rfl rfl rfl (by decide) (by decide)).mpr (by decide)

/-- Waiting for the child fails, and the driver records the exit it is told of. -/
def unreapedRun : List Label :=
  drive 12 ++ [.failWait { text := "wait" }, .wait .go {}, .wait .child {}, .wait .go {}] ++ drive 5

theorem unreapedRun_runs :
    (Transition.run (Sys.step plainConfig) (Sys.init plainConfig) unreapedRun).isSome = true := by
  decide

def unreapedJob : Job := (Transition.endOf _ _ unreapedRun unreapedRun_runs).job

theorem load_job_loses_exit :
    unreapedJob.exit = some { code := none, signal := none } ∧
      ([plainConfig.initialJob, unreapedJob].foldl Store.upsertJob {}).loadJob ⟨0⟩ ≠
        .ok (some (plainConfig.initialJob.storedAs unreapedJob)) := by
  refine ⟨by decide, fun h => ?_⟩
  have hexit := congrArg (fun r => r.toOption.map (Option.map Job.exit)) h
  exact absurd hexit (by decide)

end Execra
