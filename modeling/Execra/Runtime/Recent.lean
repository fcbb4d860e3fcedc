import Execra.Foundation.Foremost
import Execra.Runtime.Restart
import Execra.Store.Queries

/-!
The lists of jobs a runtime gives out of its memory. They are read off a map, whose values
come in no particular order, and sorted by the time of creation only; so of jobs that were
created at the same time any may come first. Nothing else depends on the order of the map.
-/

namespace Execra

theorem JobsQuery.run_none (query : JobsQuery) (values : List Job) :
    query.run none values =
      .ok (foremost Job.createdAt (query.limit.getD 100) (values.filter query.matches)) := rfl

/-- The `n` newest of the jobs that a runtime has in memory and that satisfy `p`. -/
structure Runtime.Newest (rt : Runtime) (p : Job → Bool) (n : Nat) (listed : List Job) : Prop where
  answers : ∀ j ∈ listed, rt.job j.id = some j ∧ p j = true
  once : (listed.map Job.id).Nodup
  sorted : listed.Pairwise (fun j j' => j'.createdAt ≤ j.createdAt)
  full : listed.length = min n (rt.snapshots.countP p)
  older : ∀ j ∈ rt.snapshots, p j = true → j ∉ listed → ∀ j' ∈ listed, j.createdAt ≤ j'.createdAt

/-- A column that decoding keeps. -/
theorem map_of_mapM {α β γ ε : Type} {f : α → Except ε β} {g : β → γ} {k : α → γ}
    (hkeep : ∀ a b, f a = .ok b → g b = k a) {rows : List α} {values : List β}
    (h : rows.mapM f = .ok values) : values.map g = rows.map k := by
  induction rows generalizing values with
  | nil =>
      cases h
      rfl
  | cons row rows ih =>
      rw [List.mapM_cons] at h
      cases hvalue : f row with
      | error e => rw [hvalue] at h; cases h
      | ok value =>
          cases hrest : rows.mapM f with
          | error e => rw [hvalue, hrest] at h; cases h
          | ok rest =>
              rw [hvalue, hrest] at h
              cases h
              rw [List.map_cons, List.map_cons, ih hrest, hkeep row value hvalue]

theorem limited_sublist {α : Type} (limit : Nat) (rows : List α) :
    (limited limit rows).Sublist rows := by
  unfold limited
  dsimp only
  split
  · exact List.Sublist.refl rows
  · exact List.take_sublist _ rows

namespace Runtime

variable {config : RuntimeConfig} {maxConcurrent : Nat} {history : Option Store}
  {start rt : Runtime} {ls : List RuntimeLabel}

/-- A history with one row a job is loaded with one snapshot a job. -/
theorem loaded_nodup (hbuild : build config maxConcurrent history = .ok start)
    (hkeyed : ∀ store ∈ history, store.Keyed) : (start.persisted.map Job.id).Nodup := by
  cases history with
  | none =>
      cases hbuild
      exact List.nodup_nil
  | some found =>
      have hrows := (hkeyed found rfl).resurrect
      rw [map_of_mapM (fun row j hrow => (row.decode_core hrow).1) (build_loaded hbuild)]
      refine List.Nodup.sublist ((limited_sublist 10000 _).map JobRow.id) ?_
      refine ((List.perm_insertionSort _ _).map JobRow.id).nodup_iff.mpr ?_
      exact hrows.sublist (List.filter_sublist.map JobRow.id)

theorem snapshots_nodup (hbuild : build config maxConcurrent history = .ok start)
    (hkeyed : ∀ store ∈ history, store.Keyed)
    (hrun : Transition.run Runtime.step start ls = some rt) :
    (rt.snapshots.map Job.id).Nodup := by
  obtain ⟨h, hshares, hdistinct⟩ :=
    keeps_of_run (build_jobs hbuild) (settled_of_build hbuild) hrun
  have hids : (rt.jobs.map (fun e => e.sys.snapshot)).map Job.id =
      rt.jobs.map (fun e => e.cfg.id) := by
    rw [List.map_map]
    exact List.map_congr_left (fun e he => (hshares e he).2.snapshot_id)
  rw [snapshots, List.map_append, hids, h.persisted]
  refine List.nodup_append.mpr ⟨loaded_nodup hbuild hkeyed, hdistinct, ?_⟩
  intro id hid id' hid' heq
  obtain ⟨job, hjob, rfl⟩ := List.mem_map.mp hid
  obtain ⟨e, he, rfl⟩ := List.mem_map.mp hid'
  have hfresh := h.fresh e he
  simp only [knows, Bool.or_eq_false_iff] at hfresh
  have hnone := List.any_eq_false.mp hfresh.1.2 job hjob
  exact hnone (decide_eq_true heq)

/-- What is in memory is what the runtime answers. -/
theorem job_of_snapshot {j : Job} (hnodup : (rt.snapshots.map Job.id).Nodup)
    (hj : j ∈ rt.snapshots) : rt.job j.id = some j := by
  obtain ⟨found, hfound⟩ : ∃ found, rt.snapshots.find? (fun job => job.id = j.id) = some found :=
    Option.isSome_iff_exists.mp (List.find?_isSome.mpr ⟨j, hj, decide_eq_true rfl⟩)
  have hid : found.id = j.id := of_decide_eq_true (List.find?_some hfound :)
  have hsame := List.inj_on_of_nodup_map hnodup (List.mem_of_find?_eq_some hfound) hj hid
  rw [job, hfound, hsame]

/-- The first few of the values of the map, in whatever order it lists them. -/
theorem newest_foremost (hnodup : (rt.snapshots.map Job.id).Nodup) {values : List Job}
    (hvalues : values.Perm rt.snapshots) (p : Job → Bool) (n : Nat) :
    rt.Newest p n (foremost Job.createdAt n (values.filter p)) := by
  have hfiltered := hvalues.filter p
  obtain ⟨rest, hdivides, hgreatest⟩ := foremost_divides Job.createdAt n (values.filter p)
  have hboth := (hdivides.trans hfiltered).map Job.id
  refine ⟨fun j hj => ?_, ?_, foremost_sorted, ?_, fun j hj hp hleft j' hj' => ?_⟩
  · obtain ⟨hmem, hp⟩ := List.mem_filter.mp (hfiltered.mem_iff.mp (mem_of_foremost hj))
    exact ⟨job_of_snapshot hnodup hmem, hp⟩
  · have hall := hboth.nodup_iff.mpr (hnodup.sublist (List.filter_sublist.map Job.id))
    rw [List.map_append] at hall
    exact hall.of_append_left
  · rw [length_foremost, hfiltered.length_eq, ← List.countP_eq_length_filter]
  · have hmem := (hdivides.trans hfiltered).mem_iff.mpr (List.mem_filter.mpr ⟨hj, hp⟩)
    rcases List.mem_append.mp hmem with hlisted | hrest
    · exact absurd hlisted hleft
    · exact hgreatest j' hj' j hrest

end Runtime

section Lists

variable {config : RuntimeConfig} {maxConcurrent : Nat} {history : Option Store}
  {start rt : Runtime} {ls : List RuntimeLabel} {values : List Job}

/-- Selecting from the sorted snapshots is sorting what was selected. -/
theorem foremost_of_recent (p : Job → Bool) (limit : Nat) {n : Nat} (hn : values.length ≤ n) :
    foremost Job.createdAt limit (values.filter p) = ((recent values n).filter p).take limit := by
  have htrans : IsTrans Job (fun a b => b.createdAt ≤ a.createdAt) :=
    ⟨fun _ _ _ hab hbc => le_trans hbc hab⟩
  have htotal : Std.Total (fun a b : Job => b.createdAt ≤ a.createdAt) :=
    ⟨fun a b => le_total b.createdAt a.createdAt⟩
  have hall : recent values n = values.insertionSort (fun a b => b.createdAt ≤ a.createdAt) := by
    apply List.take_of_length_le
    rwa [List.length_insertionSort]
  rw [hall, filter_insertionSort]
  rfl

/-- However the map of a runtime lists its values: `recent` gives the newest jobs it has in
memory, and a query that is resolved in memory the newest that satisfy it, each once, newest
first, and as the runtime answers for them. The order of the map has no influence on the
times of the jobs that are listed. -/
theorem memory_lists_newest (hbuild : Runtime.build config maxConcurrent history = .ok start)
    (hkeyed : ∀ store ∈ history, store.Keyed)
    (hrun : Transition.run Runtime.step start ls = some rt)
    (hvalues : values.Perm rt.snapshots) :
    (∀ n, rt.Newest (fun _ => true) n (recent values n) ∧
      (recent values n).map Job.createdAt = (recent rt.snapshots n).map Job.createdAt) ∧
    (rt.store = none → ∀ query : JobsQuery, ∃ listed, query.run rt.store values = .ok listed ∧
      rt.Newest query.matches (query.limit.getD 100) listed ∧
      ∀ n, values.length ≤ n →
        listed = ((recent values n).filter query.matches).take (query.limit.getD 100)) := by
  have hnodup := Runtime.snapshots_nodup hbuild hkeyed hrun
  refine ⟨fun n => ⟨?_, foremost_keys_of_perm hvalues⟩, fun hstore query => ?_⟩
  · have hall := Runtime.newest_foremost hnodup hvalues (fun _ => true) n
    rwa [List.filter_true] at hall
  · rw [hstore]
    exact ⟨_, query.run_none values, Runtime.newest_foremost hnodup hvalues _ _,
      fun n hn => foremost_of_recent query.matches _ hn⟩

/-- Two jobs in memory. -/
theorem soloTwo_runs : (Transition.run Runtime.step soloRuntime spawnTwo).isSome = true := by
  decide

def soloTwo : Runtime := Transition.endOf _ _ spawnTwo soloTwo_runs

theorem memory_lists_newest_solo :
    (recent soloTwo.snapshots.reverse 1).map Job.id = [⟨1⟩] ∧
    soloTwo.Newest (fun _ => true) 1 (recent soloTwo.snapshots.reverse 1) ∧
    ∃ listed, JobsQuery.run { state := some .queued } none soloTwo.snapshots.reverse =
      .ok listed ∧ soloTwo.Newest (JobsQuery.matches { state := some .queued }) 100 listed := by
  have hbuild : Runtime.build {} 1 none = .ok soloRuntime := rfl
  obtain ⟨hrecent, hquery⟩ := memory_lists_newest hbuild (fun _ h => nomatch h)
    (Transition.run_endOf soloRuntime spawnTwo soloTwo_runs) soloTwo.snapshots.reverse_perm
  obtain ⟨listed, hrun, hnewest, -⟩ := hquery rfl { state := some .queued }
  exact ⟨by decide, (hrecent 1).1, listed, hrun, hnewest⟩

end Lists

end Execra
