import Execra.Runtime.Recovery

/-!
Opening a history that this program may not read. `build` finalizes the jobs of
an earlier process before it lists the rows, and only the listing looks at the
version a row was written with. A build that is refused because of a newer
schema has by then already rewritten the rows it found in the middle of a job.
-/

namespace Execra

/-- The passes of `build` over an existing history: the database they leave, and
the jobs they load or the error `build` returns. -/
def Store.openHistory (found : Store) : Store × Except StoreError (List Job) :=
  let store := found.resurrectStrandedJobs.1
  (store, store.listJobs 10000 {})

theorem Runtime.build_eq_openHistory (config : RuntimeConfig) (maxConcurrent : Nat)
    (found : Store) :
    Runtime.build config maxConcurrent (some found) =
      found.openHistory.2.map (fromParts config maxConcurrent (some found.openHistory.1)) := by
  unfold Runtime.build Store.openHistory
  cases hjobs : found.resurrectStrandedJobs.1.listJobs 10000 {} <;>
    simp [bind, Except.bind, pure, Except.pure, Except.map, hjobs]

/-- Among the newest rows there is one that cannot be read, and the first such
row is of a newer schema. -/
def Store.Refused (store : Store) : Prop :=
  ∃ row,
    (limited 10000 (newestFirst store.jobs)).find? (fun row => !row.decode.isOk) = some row ∧
      schemaVersion < row.schemaVersion

/-! Which row a listing stops at. -/

/-- The error of a traversal is that of the first element that has one. -/
theorem mapM_error_iff {α β ε : Type} {f : α → Except ε β} {rows : List α} {e : ε} :
    rows.mapM f = .error e ↔
      ∃ row, rows.find? (fun row => !(f row).isOk) = some row ∧ f row = .error e := by
  induction rows with
  | nil => exact ⟨nofun, fun ⟨_, hfirst, _⟩ => nomatch hfirst⟩
  | cons row rows ih =>
      rw [List.mapM_cons]
      cases hrow : f row with
      | error e' =>
          rw [List.find?_cons_of_pos (by rw [hrow]; rfl)]
          constructor
          · intro h
            cases h
            exact ⟨row, rfl, hrow⟩
          · rintro ⟨_, hfirst, h⟩
            cases hfirst
            rw [hrow] at h
            cases h
            rfl
      | ok value =>
          rw [List.find?_cons_of_neg (by rw [hrow]; exact Bool.false_ne_true), ← ih]
          cases rows.mapM f with
          | error e' => rfl
          | ok values => exact ⟨nofun, nofun⟩

theorem limited_map {α β : Type} (f : α → β) (limit : Nat) (rows : List α) :
    limited limit (rows.map f) = (limited limit rows).map f := by
  unfold limited
  dsimp only
  split
  · rfl
  · exact (List.map_take ..).symm

/-- Recovery changes nothing that decoding can fail on. -/
theorem JobRow.decode_resurrect_error (row : JobRow) (e : StoreError) :
    row.resurrect.decode = .error e ↔ row.decode = .error e := by
  cases hrow : row.stranded with
  | false => rw [JobRow.resurrect, if_neg (by simp [hrow])]
  | true =>
      have hstate : ∃ state, JobState.ofText row.state = .ok state := by
        simp only [JobRow.stranded, List.contains_iff_mem, List.mem_cons, List.not_mem_nil,
          or_false] at hrow
        rcases hrow with h | h | h <;> rw [h] <;> exact ⟨_, rfl⟩
      obtain ⟨state, hstate⟩ := hstate
      have hfinalized : JobState.ofText "finalized" = .ok .finalized := rfl
      rw [JobRow.resurrect_stranded hrow]
      unfold JobRow.decode buildJob
      cases hversion : checkSchemaVersion row.schemaVersion with
      | error e' => rfl
      | ok _ =>
          simp only [hstate, hfinalized, bind, Except.bind, pure, Except.pure]
          constructor <;> intro h <;> cases h

/-- Decoding fails for the version of a row exactly when that is a newer one. -/
theorem JobRow.decode_unsupported_iff (row : JobRow) (found supported : Int) :
    row.decode = .error (.unsupportedSchemaVersion found supported) ↔
      Execra.schemaVersion < row.schemaVersion ∧ found = row.schemaVersion ∧
        supported = Execra.schemaVersion := by
  unfold JobRow.decode checkSchemaVersion
  split
  · next hnewer =>
      simp only [bind, Except.bind, Except.error.injEq, StoreError.unsupportedSchemaVersion.injEq]
      exact ⟨fun h => ⟨hnewer, h.1.symm, h.2.symm⟩, fun h => ⟨h.2.1.symm, h.2.2.symm⟩⟩
  · next holder =>
      have hstate : ∀ e, JobState.ofText row.state = .error e → e = .serde row.state := by
        intro e he
        unfold JobState.ofText at he
        repeat' split at he
        all_goals cases he
        rfl
      refine ⟨fun h => ?_, fun h => absurd h.1 holder⟩
      unfold buildJob at h
      cases htext : JobState.ofText row.state with
      | error e =>
          rw [hstate e htext] at htext
          simp [htext, bind, Except.bind] at h
      | ok state => simp [htext, bind, Except.bind, pure, Except.pure] at h

/-! The two passes together. -/

/-- Recovery keeps the order of the rows. -/
theorem newestFirst_resurrect (rows : List JobRow) :
    newestFirst (rows.map JobRow.resurrect) = (newestFirst rows).map JobRow.resurrect := by
  have htime : ∀ row : JobRow, row.resurrect.createdAtMs = row.createdAtMs := by
    intro row
    unfold JobRow.resurrect
    split <;> rfl
  refine (List.map_insertionSort _ _ JobRow.resurrect rows (fun a _ b _ => ?_)).symm
  rw [htime a, htime b]

theorem Store.openHistory_jobs (found : Store) :
    found.openHistory.2 =
      ((limited 10000 (newestFirst found.jobs)).map JobRow.resurrect).mapM JobRow.decode := by
  have hall : ∀ rows : List JobRow, rows.filter (JobsFilter.admits {}) = rows :=
    fun rows => List.filter_eq_self.mpr (fun _ _ => rfl)
  change found.resurrectStrandedJobs.1.listJobs 10000 {} = _
  rw [Store.listJobs_untagged _ _ rfl, hall]
  dsimp only [Store.resurrectStrandedJobs]
  rw [newestFirst_resurrect, limited_map]

/-- `build` refuses the history for its schema version exactly when the first of
the newest rows that cannot be read is of a newer schema. -/
theorem Runtime.build_unsupported_iff (config : RuntimeConfig) (maxConcurrent : Nat)
    (found : Store) :
    (∃ version supported, Runtime.build config maxConcurrent (some found) =
      .error (.unsupportedSchemaVersion version supported)) ↔ found.Refused := by
  have hmap : ∀ e, Runtime.build config maxConcurrent (some found) = .error e ↔
      found.openHistory.2 = .error e := by
    intro e
    rw [Runtime.build_eq_openHistory]
    cases found.openHistory.2 with
    | error e' => simp [Except.map]
    | ok jobs => exact ⟨nofun, nofun⟩
  have hisOk : ∀ row : JobRow, row.resurrect.decode.isOk = row.decode.isOk := by
    intro row
    cases hrow : row.decode with
    | error e => rw [(row.decode_resurrect_error e).mpr hrow]
    | ok job =>
        cases hresurrect : row.resurrect.decode with
        | ok _ => rfl
        | error e => rw [(row.decode_resurrect_error e).mp hresurrect] at hrow; cases hrow
  simp only [hmap, Store.openHistory_jobs, mapM_error_iff, List.find?_map, Function.comp_def,
    hisOk]
  constructor
  · rintro ⟨version, supported, _, hfirst, herror⟩
    obtain ⟨row, hrow, rfl⟩ := Option.map_eq_some_iff.mp hfirst
    rw [JobRow.decode_resurrect_error, JobRow.decode_unsupported_iff] at herror
    exact ⟨row, hrow, herror.1⟩
  · rintro ⟨row, hrow, hnewer⟩
    refine ⟨row.schemaVersion, schemaVersion, row.resurrect, by rw [hrow]; rfl, ?_⟩
    rw [JobRow.decode_resurrect_error, JobRow.decode_unsupported_iff]
    exact ⟨hnewer, rfl, rfl⟩

/-- Recovery leaves the rows alone exactly when none of them is stranded. -/
theorem Store.resurrect_jobs_eq_iff (store : Store) :
    store.resurrectStrandedJobs.1.jobs = store.jobs ↔
      ∀ row ∈ store.jobs, row.stranded = false := by
  have hrow : ∀ row : JobRow, row.resurrect = row ↔ row.stranded = false := by
    intro row
    cases hstranded : row.stranded with
    | false => simp [JobRow.resurrect, hstranded]
    | true =>
        refine iff_of_false (fun h => ?_) Bool.noConfusion
        rw [JobRow.resurrect_stranded hstranded] at h
        rw [← h] at hstranded
        exact absurd hstranded (by simp [JobRow.stranded])
  have hmap := @List.map_inj_left _ _ store.jobs JobRow.resurrect id
  rw [List.map_id] at hmap
  simp only [← hrow]
  exact hmap

/-- A build that is refused for the schema version leaves the jobs table as it
was exactly when it was not going to be refused or found no stranded row. -/
theorem refused_open_keeps_jobs_iff (config : RuntimeConfig) (maxConcurrent : Nat)
    (found : Store) :
    (∀ version supported, Runtime.build config maxConcurrent (some found) =
        .error (.unsupportedSchemaVersion version supported) →
      found.openHistory.1.jobs = found.jobs) ↔
      (∀ row ∈ found.jobs, row.stranded = false) ∨ ¬ found.Refused := by
  have hjobs : found.openHistory.1.jobs = found.jobs ↔
      ∀ row ∈ found.jobs, row.stranded = false :=
    found.resurrect_jobs_eq_iff
  rw [← Runtime.build_unsupported_iff config maxConcurrent, ← hjobs]
  constructor
  · intro h
    by_cases hrefused : ∃ version supported, Runtime.build config maxConcurrent (some found) =
        .error (.unsupportedSchemaVersion version supported)
    · obtain ⟨version, supported, hbuild⟩ := hrefused
      exact Or.inl (h version supported hbuild)
    · exact Or.inr hrefused
  · rintro (h | h) version supported hbuild
    · exact h
    · exact absurd ⟨version, supported, hbuild⟩ h

/-- A job of a newer program that is still running. -/
def newerRow : JobRow :=
  { JobRow.ofJob plainConfig.initialJob with state := "running", schemaVersion := 1 }

/-- `build` fails, and the row of the newer schema is finalized. -/
theorem refused_open_rewrites_newer_row :
    Runtime.build {} 1 (some { jobs := [newerRow] }) = .error (.unsupportedSchemaVersion 1 0) ∧
      (Store.openHistory { jobs := [newerRow] }).1.jobs =
        [{ newerRow with state := "finalized", outcomeJson := some ⟨hostExited⟩ }] ∧
      (Store.openHistory { jobs := [newerRow] }).1.jobs ≠ [newerRow] :=
  ⟨rfl, rfl, by decide⟩

end Execra
