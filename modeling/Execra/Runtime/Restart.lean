import Execra.Runtime.Registry

/-!
Restarts. A process that stops leaves its rows, and each later one recovers them before it
does anything else. What the first one after it makes of a row is final: every process that
opens the history from then on finds the same job. The processes that run jobs on a history
come one after the other; while one lives the others may open it, and no more.
-/

namespace Execra

/-- A store that processes have left which worked on `store`, one after the other. -/
inductive Store.Later (store : Store) : Store → Prop where
  | same : Later store store
  | run {found last : Store} {config : RuntimeConfig} {maxConcurrent : Nat}
      {start rt : Runtime} {ls : List RuntimeLabel} (hlater : Later store found)
      (hbuild : Runtime.build config maxConcurrent (some found) = .ok start)
      (hrun : Transition.run Runtime.step start ls = some rt) (hstore : rt.store = some last) :
      Later store last

/-- What is left of a job when its process has stopped. -/
structure Job.LeftAs (j kept : Job) : Prop where
  id : kept.id = j.id
  command : kept.command = j.command
  created : kept.createdAt = fromMs (toMs j.createdAt)
  state : kept.state = .finalized
  outcome : kept.outcome = some hostExited ∨ j.state = .finalized ∧ kept.outcome = j.outcome

/-! Each job has one row. -/

def Store.Keyed (store : Store) : Prop := (store.jobs.map JobRow.id).Nodup

theorem map_id_upsertRow (row : JobRow) (rows : List JobRow) :
    (upsertRow row rows).map JobRow.id =
      if row.id ∈ rows.map JobRow.id then rows.map JobRow.id
      else rows.map JobRow.id ++ [row.id] := by
  induction rows with
  | nil => rfl
  | cons old rest ih =>
      unfold upsertRow
      by_cases hid : old.id = row.id
      · simp [hid]
      · rw [if_neg hid, List.map_cons, ih, List.map_cons]
        by_cases hmem : row.id ∈ rest.map JobRow.id
        · rw [if_pos hmem, if_pos (List.mem_cons_of_mem _ hmem)]
        · have hnew : row.id ∉ old.id :: rest.map JobRow.id :=
            fun h => (List.mem_cons.mp h).elim (Ne.symm hid) hmem
          rw [if_neg hmem, if_neg hnew, List.cons_append]

theorem Store.Keyed.upsertJob {store : Store} (h : store.Keyed) (j : Job) :
    (store.upsertJob j).Keyed := by
  unfold Keyed Store.upsertJob
  rw [map_id_upsertRow]
  split
  · exact h
  · next hnew =>
      refine List.nodup_append.mpr ⟨h, List.nodup_singleton _, fun id hid other hother heq => ?_⟩
      rw [heq, List.mem_singleton.mp hother] at hid
      exact hnew hid

theorem JobRow.resurrect_id (row : JobRow) : row.resurrect.id = row.id := by
  unfold resurrect
  split <;> rfl

theorem Store.Keyed.resurrect {store : Store} (h : store.Keyed) :
    store.resurrectStrandedJobs.1.Keyed := by
  have hids : store.resurrectStrandedJobs.1.jobs.map JobRow.id = store.jobs.map JobRow.id := by
    simp only [Store.resurrectStrandedJobs, List.map_map]
    exact List.map_congr_left (fun row _ => row.resurrect_id)
  unfold Keyed
  rw [hids]
  exact h

theorem Store.Keyed.row_of_mem {store : Store} (h : store.Keyed) {row : JobRow}
    (hrow : row ∈ store.jobs) : store.row row.id = some row := by
  obtain ⟨found, hfound⟩ : ∃ found, store.row row.id = some found :=
    Option.isSome_iff_exists.mp (List.find?_isSome.mpr ⟨row, hrow, decide_eq_true rfl⟩)
  have hid : found.id = row.id := of_decide_eq_true (List.find?_some hfound :)
  rw [hfound, List.inj_on_of_nodup_map h (List.mem_of_find?_eq_some hfound) hrow hid]

/-! What the moves of an owned history do to its rows. -/

/-- The columns of a row that are written once. -/
def JobRow.origin (row : JobRow) : CommandSpec × Int := (row.commandJson.value, row.createdAtMs)

/-- Every row is still there, and is about the same job. -/
def Store.Retains (store store' : Store) : Prop :=
  ∀ id row, store.row id = some row → ∃ row', store'.row id = some row' ∧ row'.origin = row.origin

/-- The outcome in a row: there is none yet, somebody has given the job up, or the job has
come to it. -/
def JobRow.Tells (row : JobRow) (j : Job) : Prop :=
  row.outcomeJson = none ∨ row.outcomeJson = some ⟨hostExited⟩ ∨
    j.state = .finalized ∧ row.outcomeJson = j.outcome.map Json.mk

theorem JobRow.Tells.resurrect {row : JobRow} {j : Job} (h : row.Tells j) :
    row.resurrect.Tells j := by
  unfold JobRow.resurrect
  split
  · exact Or.inr (Or.inl rfl)
  · exact h

theorem JobRow.Tells.advances {row : JobRow} {j j' : Job} (h : row.Tells j)
    (hadvances : j.Advances j') : row.Tells j' := by
  rcases h with hnone | hexited | ⟨hfinal, houtcome⟩
  · exact Or.inl hnone
  · exact Or.inr (Or.inl hexited)
  · rw [hadvances.final hfinal]
    exact Or.inr (Or.inr ⟨hfinal, houtcome⟩)

theorem JobRow.Tells.saved {row : JobRow} {j : Job} (hj : j.Consistent)
    (houtcome : row.outcomeJson = j.outcome.map Json.mk) : row.Tells j := by
  by_cases hfinal : j.state = .finalized
  · exact Or.inr (Or.inr ⟨hfinal, houtcome⟩)
  · left
    rw [houtcome, Option.map_eq_none_iff, ← Option.not_isSome_iff_eq_none]
    exact fun hsome => hfinal (hj.outcome.mp hsome)

theorem JobRow.upserted_origin (old : JobRow) (j : Job) :
    (JobRow.upserted (some old) j).origin = old.origin := rfl

theorem Store.retains_upsertJob (store : Store) (j : Job) : store.Retains (store.upsertJob j) := by
  intro id row hrow
  by_cases hid : j.id = id
  · subst hid
    refine ⟨_, store.row_upsertJob j, ?_⟩
    rw [hrow, JobRow.upserted_origin]
  · exact ⟨row, (store.row_upsertJob_of_ne hid).trans hrow, rfl⟩

namespace Ownership

variable {o o' : Ownership} {opened : Bool}

theorem Move.keyed (h : o.Move opened o') (hkeyed : o.store.Keyed) : o'.store.Keyed := by
  cases h with
  | rest store' hrows | advance i j j' store' hj hid hadvances hj' hrows =>
      unfold Store.Keyed
      rw [hrows]
      exact hkeyed
  | save j hj => exact hkeyed.upsertJob j
  | add j => exact hkeyed.upsertJob j
  | opened => exact hkeyed.resurrect

theorem Move.retains (h : o.Move opened o') : o.store.Retains o'.store := by
  cases h with
  | rest store' hrows | advance i j j' store' hj hid hadvances hj' hrows =>
      exact fun id row hrow => ⟨row, (row_of_jobs hrows id).trans hrow, rfl⟩
  | save j hj => exact o.store.retains_upsertJob j
  | add j => exact o.store.retains_upsertJob j
  | opened =>
      intro id row hrow
      refine ⟨row.resurrect, by rw [Store.row_resurrect, hrow]; rfl, ?_⟩
      unfold JobRow.resurrect
      split <;> rfl

/-- The rows of the live jobs tell their outcomes. -/
def Tells (o : Ownership) : Prop := ∀ j ∈ o.live, ∀ row ∈ o.store.row j.id, row.Tells j

theorem Tells.saved (h : o.Tells) (hids : (o.live.map Job.id).Nodup) {j k : Job}
    (hj : j.Consistent) (hlive : j ∈ o.live ∨ ∀ k ∈ o.live, k.id ≠ j.id)
    (hk : k ∈ o.live ∨ k = j) {row : JobRow} (hrow : (o.store.upsertJob j).row k.id = some row) :
    row.Tells k := by
  rcases row_of_saved hrow with ⟨hid, -, houtcome⟩ | ⟨hid, hold⟩
  · have hsame : k = j := by
      rcases hk with hk | rfl
      · rcases hlive with hmem | hnew
        · exact List.inj_on_of_nodup_map hids hk hmem hid
        · exact absurd hid (hnew k hk)
      · rfl
    subst hsame
    exact .saved hj houtcome
  · rcases hk with hk | rfl
    · exact h k hk row hold
    · exact absurd rfl hid

theorem Tells.move (h : o.Tells) (hfiled : o.Filed) (hmove : o.Move opened o') : o'.Tells := by
  cases hmove with
  | rest store' hrows =>
      intro j hj row hrow
      rw [row_of_jobs hrows] at hrow
      exact h j hj row hrow
  | advance i j j' store' hj hid hadvances hj' hrows =>
      intro k hk row hrow
      rw [row_of_jobs hrows] at hrow
      rcases List.mem_or_eq_of_mem_set hk with hk | rfl
      · exact h k hk row hrow
      · exact (h j (List.mem_of_getElem? hj) row (hid ▸ hrow)).advances hadvances
  | save j hj =>
      exact fun k hk row hrow =>
        h.saved hfiled.ids (hfiled.consistent j hj) (Or.inl hj) (Or.inl hk) hrow
  | add j hnone hnew hj =>
      intro k hk row hrow
      have hcases : k ∈ o.live ∨ k = j := by simpa using hk
      exact h.saved hfiled.ids hj (Or.inr hnew) hcases hrow
  | opened =>
      intro j hj row hrow
      rw [Option.mem_def, Store.row_resurrect] at hrow
      obtain ⟨old, hold, rfl⟩ := Option.map_eq_some_iff.mp hrow
      exact (h j hj old hold).resurrect

end Ownership

/-! A process and its rows. -/

namespace Runtime

variable {start rt rt' : Runtime} {l : RuntimeLabel} {ls : List RuntimeLabel}

/-- What the rows of a process say about its jobs. -/
structure Rows (rt : Runtime) (store : Store) : Prop where
  keyed : store.Keyed
  recoverable : store.Recoverable
  filed : (rt.owned store).Filed
  tells : (rt.owned store).Tells
  origin : ∀ e ∈ rt.jobs, ∀ row ∈ store.row e.cfg.id,
    row.origin = (e.cfg.spec, toMs e.cfg.createdAt)

/-- A job that was just accepted has the row that was written for it. -/
theorem Move.origin_accepted (hmove : rt.Move l rt') {cfg : Config}
    (hfresh : rt.knows cfg.id = false) (hmem : rt.accept cfg ∈ rt'.jobs) {row : JobRow}
    (hrow : rt'.rowOf cfg.id = some row) : row.origin = (cfg.spec, toMs cfg.createdAt) := by
  have hset : ∀ {i : Nat} {e e' : Entry}, rt.jobs[i]? = some e → e'.cfg = e.cfg →
      rt.accept cfg ∉ rt.jobs.set i e' := by
    intro i e e' he hcfg hset
    rcases List.mem_or_eq_of_mem_set hset with hold | hnew
    · exact ne_of_not_knows hfresh hold rfl
    · have hid : cfg.id = e.cfg.id := by rw [← hcfg, ← hnew]; rfl
      exact ne_of_not_knows hfresh (List.mem_of_getElem? he) hid.symm
  cases hmove with
  | refuse | openHistory => exact absurd rfl (ne_of_not_knows hfresh hmem)
  | spawn cfg' upsertOk hfresh' =>
      rcases List.mem_append.mp hmem with hold | hnew
      · exact absurd rfl (ne_of_not_knows hfresh hold)
      · have hid : cfg.id = cfg'.id := congrArg (fun e => e.cfg.id) (List.mem_singleton.mp hnew)
        have hspec : cfg.spec = cfg'.spec :=
          congrArg (fun e => e.cfg.spec) (List.mem_singleton.mp hnew)
        have hcreated : cfg.createdAt = cfg'.createdAt :=
          congrArg (fun e => e.cfg.createdAt) (List.mem_singleton.mp hnew)
        rw [hid] at hrow
        rw [hspec, hcreated]
        cases hstore : rt.store with
        | none => simp [rowOf, accept, Sys.init, hstore] at hrow
        | some store =>
            have hnone : store.row cfg'.id = none := by
              simpa [knows, hstore] using (Bool.or_eq_false_iff.mp hfresh').2
            simp only [rowOf, accept, Sys.init, hstore, Option.map_some, Option.bind_some] at hrow
            have hsaved := store.row_upsertJob cfg'.initialJob
            have hnone' : store.row cfg'.initialJob.id = none := hnone
            rw [hnone'] at hsaved
            cases hsaved.symm.trans hrow
            rfl
  | acquire i e w s he | job i e l s he | release i e he => exact absurd hmem (hset he rfl)

theorem Rows.move {store store' : Store} (h : rt.Rows store) (hshares : rt.Shares)
    (hmove : rt.Move l rt') (hstore : rt.store = some store) (hstore' : rt'.store = some store') :
    rt'.Rows store' := by
  have howned := hmove.owned hshares hstore hstore'
  have hrows : ∀ found, rt.store = some found → found.Recoverable := by
    intro found hfound
    cases hstore.symm.trans hfound
    exact h.recoverable
  refine ⟨howned.keyed h.keyed, hmove.recoverable hshares hrows store' hstore',
    h.filed.move howned, h.tells.move h.filed howned, fun e he row hrow => ?_⟩
  rcases hmove.jobs hshares he with ⟨cfg, hfresh, rfl⟩ | ⟨i, old, hold, hcases⟩
  · refine hmove.origin_accepted hfresh he ?_
    rw [rowOf, hstore']
    exact hrow
  · have hcfg : e.cfg = old.cfg := by
      rcases hcases with rfl | ⟨own, hown, -⟩
      · rfl
      · exact hown.same_cfg
    have hmem := List.mem_of_getElem? hold
    obtain ⟨found, hfound, -⟩ := h.filed.row old.sys.snapshot
      (List.mem_map_of_mem (f := fun e => e.sys.snapshot) hmem)
    rw [(hshares old hmem).2.snapshot_id] at hfound
    have hfound : store.row old.cfg.id = some found := hfound
    obtain ⟨row', hrow', horigin⟩ := howned.retains _ found hfound
    have hsame : row' = row := Option.some.inj (hrow'.symm.trans (hcfg ▸ hrow))
    rw [hcfg, ← h.origin old hmem found hfound, ← horigin, hsame]

theorem rows_of_build {found store : Store} {config : RuntimeConfig} {maxConcurrent : Nat}
    (hkeyed : found.Keyed) (hrows : found.Recoverable)
    (hbuild : build config maxConcurrent (some found) = .ok start)
    (hrun : Transition.run Runtime.step start ls = some rt) (hstore : rt.store = some store) :
    rt.Rows store := by
  obtain ⟨hrecovered, hstart⟩ := build_ok hbuild
  have hboth := Transition.invariant_of_run (P := fun _ _ => True)
    (I := fun rt => rt.Shares ∧ ∀ store, rt.store = some store → rt.Rows store)
    (fun rt l rt' h _ hstep => ?_) ⟨shares_of_none hstart, fun store hfound => ?_⟩
    (Transition.stepsMeet_of_forall (fun _ _ => trivial) _ _) hrun
  · exact hboth.2 store hstore
  · have hmove := step_move hstep
    refine ⟨hmove.shares h.1, fun store' hstore' => ?_⟩
    obtain ⟨store, hstore⟩ := hmove.had_store hstore'
    exact (h.2 store hstore).move h.1 hmove hstore hstore'
  · rw [hrecovered] at hfound
    cases hfound
    have hlive : (start.owned found.resurrectStrandedJobs.1).live = [] := by
      simp [Runtime.owned, hstart]
    exact {
      keyed := hkeyed.resurrect
      recoverable := hrows.resurrect
      filed := ⟨by simp [hlive], by simp [hlive], by simp [hlive]⟩
      tells := by simp [Ownership.Tells, hlive]
      origin := by simp [hstart] }

end Runtime

theorem Store.Recorded.keyed {store : Store} (h : store.Recorded) : store.Keyed := by
  induction h with
  | new => exact List.nodup_nil
  | run hfound hbuild hrun hstore ih =>
      exact (Runtime.rows_of_build ih hfound.recoverable hbuild hrun hstore).keyed

/-- What a finalized row is read as. -/
theorem JobRow.Recoverable.decode_final {row : JobRow} (h : row.Recoverable)
    (hfinal : row.state = "finalized") : ∃ kept, row.decode = .ok kept ∧ kept.id = row.id ∧
      kept.command = row.commandJson.value ∧ kept.createdAt = fromMs row.createdAtMs ∧
      kept.state = .finalized ∧ kept.outcome = row.outcomeJson.map Json.value := by
  have htext : JobState.ofText row.state = .ok .finalized := by
    rw [hfinal]
    rfl
  unfold JobRow.decode buildJob
  rw [h.schema, checkSchemaVersion_current, htext]
  exact ⟨_, rfl, rfl, rfl, rfl, rfl, rfl⟩

/-- A runtime that was just built answers with what the rows are read as. -/
theorem Runtime.job_of_build {found : Store} {config : RuntimeConfig} {maxConcurrent : Nat}
    {start : Runtime} (hkeyed : found.Keyed)
    (hbuild : Runtime.build config maxConcurrent (some found) = .ok start) (id : JobId) :
    start.job id = ((found.row id).map JobRow.resurrect).bind (fun row => row.decode.toOption) := by
  obtain ⟨hrecovered, hstart⟩ := Runtime.build_ok hbuild
  have hrow : start.rowOf id = (found.row id).map JobRow.resurrect := by
    rw [Runtime.rowOf, hrecovered, Option.bind_some, Store.row_resurrect]
  have hnobody : start.jobs.find? (fun e => e.sys.snapshot.id = id) = none := by
    rw [hstart]
    rfl
  rw [Runtime.job_of_stranger hnobody, ← hrow]
  cases hloaded : start.persisted.find? (fun job => job.id = id) with
  | none => exact Option.none_or
  | some j =>
      -- A job that was loaded is read from the row of its id.
      obtain ⟨row, hlisted, hdecode⟩ := (mem_of_mapM (Runtime.build_loaded hbuild) j).mp
        (List.mem_of_find?_eq_some hloaded)
      have hmem := List.mem_of_mem_filter ((List.mem_insertionSort _).mp (mem_of_limited hlisted))
      have hid : row.id = id := by
        have hsame : j.id = row.id := (JobRow.decode_core hdecode).1
        rw [← hsame]
        exact of_decide_eq_true (List.find?_some hloaded :)
      have hfound := hkeyed.resurrect.row_of_mem hmem
      rw [hid] at hfound
      have hstored : start.rowOf id = some row := by
        rw [Runtime.rowOf, hrecovered, Option.bind_some, hfound]
      rw [Option.some_or, hstored, Option.bind_some, hdecode]
      rfl

/-- Later processes leave a row that was recovered as it is. -/
theorem Store.Recorded.later {store last : Store} (h : store.Recorded) (hlater : store.Later last) :
    last.Recorded ∧ ∀ id row, store.row id = some row →
      (last.row id).map JobRow.resurrect = some row.resurrect := by
  induction hlater with
  | same => exact ⟨h, fun id row hrow => by rw [hrow]; rfl⟩
  | @run found last config maxConcurrent start rt ls hlater hbuild hrun hstore ih =>
      obtain ⟨hfound, hrows⟩ := ih
      refine ⟨.run hfound hbuild hrun hstore, fun id row hrow => ?_⟩
      obtain ⟨hrecovered, hstart⟩ := Runtime.build_ok hbuild
      obtain ⟨hkeeps, -, -⟩ :=
        Runtime.keeps_of_run hstart (Runtime.settled_of_build hbuild) hrun
      have hbefore : start.rowOf id = some row.resurrect := by
        rw [Runtime.rowOf, hrecovered, Option.bind_some, Store.row_resurrect, hrows id row hrow]
      have hstranger : ∀ e ∈ rt.jobs, e.cfg.id ≠ id := by
        intro e he hid
        have hfresh := hkeeps.fresh e he
        rw [hid] at hfresh
        simp only [Runtime.knows, Bool.or_eq_false_iff, hrecovered, Option.any_some] at hfresh
        rw [Runtime.rowOf, hrecovered, Option.bind_some] at hbefore
        rw [hbefore] at hfresh
        cases hfresh.2
      have hafter := hkeeps.rows id hstranger
      rw [hbefore, Runtime.rowOf, hstore, Option.bind_some] at hafter
      rw [hafter, Option.map_some, row.resurrect_resurrect]

theorem Sys.Reachable.snapshot_identity {cfg : Config} {s : Sys} (hs : Sys.Reachable cfg s) :
    s.snapshot.identity = (cfg.id, cfg.spec, cfg.createdAt) :=
  Transition.Reachable.invariant
    (I := fun s : Sys => s.snapshot.identity = (cfg.id, cfg.spec, cfg.createdAt)) hs rfl
    (fun _ _ _ h hstep => (Sys.step_identity hstep).trans h)

section Restart

variable {found store : Store} {config : RuntimeConfig} {maxConcurrent : Nat}
  {start rt : Runtime} {ls : List RuntimeLabel}

/-- The row of a job that a process has accepted, once it was recovered. -/
theorem Runtime.Rows.left {e : Entry} (h : rt.Rows store) (hshares : rt.Shares)
    (he : e ∈ rt.jobs) : ∃ row kept, store.row e.cfg.id = some row ∧
      row.resurrect.decode = .ok kept ∧ e.sys.snapshot.LeftAs kept := by
  obtain ⟨own, -, hreach⟩ := (hshares e he).2
  have hidentity : e.sys.snapshot.identity = (e.cfg.id, e.cfg.spec, e.cfg.createdAt) :=
    hreach.snapshot_identity
  obtain ⟨hid, hsame⟩ := Prod.mk.inj hidentity
  obtain ⟨hspec, hcreated⟩ := Prod.mk.inj hsame
  have hlive : e.sys.snapshot ∈ (rt.owned store).live :=
    List.mem_map_of_mem (f := fun e => e.sys.snapshot) he
  obtain ⟨row, hrow, -⟩ := h.filed.row e.sys.snapshot hlive
  have htells := (h.tells e.sys.snapshot hlive row hrow).resurrect
  rw [hid] at hrow
  have hmem : row ∈ store.jobs := List.mem_of_find?_eq_some hrow
  have hrecoverable := h.recoverable row hmem
  have hfinal := hrecoverable.resurrect_state
  obtain ⟨kept, hdecode, hkept, hcommand, hat, hstate, houtcome⟩ :=
    hrecoverable.resurrect.decode_final hfinal
  obtain ⟨horigin, hms⟩ := Prod.mk.inj (h.origin e he row hrow)
  have hrowId : row.id = e.cfg.id := of_decide_eq_true (List.find?_some hrow :)
  have hresurrected : row.resurrect.origin = row.origin := by
    unfold JobRow.resurrect
    split <;> rfl
  obtain ⟨hcommand', hms'⟩ := Prod.mk.inj hresurrected
  refine ⟨row, kept, hrow, hdecode, ?_, ?_, ?_, hstate, ?_⟩
  · rw [hkept, row.resurrect_id, hrowId, hid]
  · rw [hcommand, hcommand', horigin, hspec]
  · rw [hat, hms', hms, hcreated]
  · rw [houtcome]
    rcases htells with hnone | hexited | ⟨hfinalized, htold⟩
    · have hsome := hrecoverable.resurrect.outcome hfinal
      rw [hnone] at hsome
      cases hsome
    · rw [hexited]
      exact Or.inl rfl
    · rw [htold]
      refine Or.inr ⟨hfinalized, ?_⟩
      cases e.sys.snapshot.outcome <;> rfl

/-- A job that a process knew when it stopped is found by every later process on the same
history, if they use it one after the other, and always as the same. If the process knew it
from the history, nothing has changed. If it has accepted the job itself, the job is
finalized now, with its command, its time of creation in milliseconds, and the outcome it
had come to or that of a job whose process has exited. -/
theorem jobs_survive_restarts (hfound : found.Recorded)
    (hbuild : Runtime.build config maxConcurrent (some found) = .ok start)
    (hrun : Transition.run Runtime.step start ls = some rt) (hstore : rt.store = some store)
    {id : JobId} {j : Job} (hj : rt.job id = some j) :
    ∃ kept, (start.knows id = true → kept = j) ∧ (start.knows id = false → j.LeftAs kept) ∧
      ∀ last, store.Later last → ∀ config maxConcurrent, ∃ next,
        Runtime.build config maxConcurrent (some last) = .ok next ∧ next.job id = some kept := by
  have hstored : store.Recorded := .run hfound hbuild hrun hstore
  have hrows := Runtime.rows_of_build hfound.keyed hfound.recoverable hbuild hrun hstore
  obtain ⟨hkeeps, hshares, hdistinct⟩ := Runtime.keeps_of_run (Runtime.build_jobs hbuild)
    (Runtime.settled_of_build hbuild) hrun
  -- Whatever the row is read as is found from then on.
  have hlater : ∀ {row : JobRow} {kept : Job}, store.row id = some row →
      row.resurrect.decode = .ok kept → ∀ last, store.Later last → ∀ config maxConcurrent,
        ∃ next, Runtime.build config maxConcurrent (some last) = .ok next ∧
          next.job id = some kept := by
    intro row kept hrow hdecode last hlast config maxConcurrent
    obtain ⟨hrecorded, hsame⟩ := hstored.later hlast
    obtain ⟨next, hnext, -⟩ := hrecorded.recoverable.build config maxConcurrent
    refine ⟨next, hnext, ?_⟩
    rw [Runtime.job_of_build hrecorded.keyed hnext, hsame id row hrow, Option.bind_some, hdecode]
    rfl
  by_cases hlive : ∃ e ∈ rt.jobs, e.cfg.id = id
  · obtain ⟨e, he, rfl⟩ := hlive
    cases (Runtime.job_of_entry hkeeps hshares hdistinct he).symm.trans hj
    obtain ⟨row, kept, hrow, hdecode, hleft⟩ := hrows.left hshares he
    refine ⟨kept, fun hknew => ?_, fun _ => hleft, hlater hrow hdecode⟩
    rw [hkeeps.fresh e he] at hknew
    cases hknew
  · have hnone : ∀ e ∈ rt.jobs, e.cfg.id ≠ id := fun e he hid => hlive ⟨e, he, hid⟩
    rw [Runtime.job_of_none hkeeps (Runtime.build_jobs hbuild) hshares hnone] at hj
    have hknew := Runtime.knows_of_job hj (Runtime.build_jobs hbuild)
    refine ⟨j, fun _ => rfl, fun hfresh => ?_, ?_⟩
    · rw [hknew] at hfresh
      cases hfresh
    · rw [Runtime.job_of_build hfound.keyed hbuild] at hj
      obtain ⟨row, hrow, hdecode⟩ := Option.bind_eq_some_iff.mp hj
      have hafter : store.row id = some row := by
        have hsame := hkeeps.rows id hnone
        rw [Runtime.rowOf, Runtime.rowOf, hstore, (Runtime.build_ok hbuild).1, Option.bind_some,
          Option.bind_some, Store.row_resurrect, hrow] at hsame
        exact hsame
      obtain ⟨old, -, rfl⟩ := Option.map_eq_some_iff.mp hrow
      refine hlater hafter ?_
      rw [old.resurrect_resurrect]
      cases hresult : old.resurrect.decode with
      | error err => rw [hresult] at hdecode; cases hdecode
      | ok kept =>
          rw [hresult] at hdecode
          exact congrArg Except.ok (Option.some.inj hdecode)

/-- The job that was running when its process stopped. -/
theorem jobs_survive_restarts_serial : ∃ j kept next,
    storedSerialEnd.job ⟨1⟩ = some j ∧ j.state = .running ∧
    Runtime.build {} 1 (some serialStore) = .ok next ∧ next.job ⟨1⟩ = some kept ∧
    kept.state = .finalized ∧ kept.outcome = some hostExited := by
  have hknown : (storedSerialEnd.job ⟨1⟩).map Job.state = some .running := by decide
  obtain ⟨j, hj, hstate⟩ := Option.map_eq_some_iff.mp hknown
  obtain ⟨kept, -, hleft, hlater⟩ := jobs_survive_restarts .new storedRuntime_built
    (Transition.run_endOf storedRuntime serialRun storedSerial_runs)
    (show storedSerialEnd.store = some serialStore from (Option.some_get _).symm) hj
  obtain ⟨next, hnext, hfound⟩ := hlater serialStore .same {} 1
  have hkept := hleft (by decide)
  refine ⟨j, kept, next, hj, hstate, hnext, hfound, hkept.state, ?_⟩
  rcases hkept.outcome with hexited | ⟨hfinal, -⟩
  · exact hexited
  · rw [hstate] at hfinal
    cases hfinal

end Restart

end Execra
