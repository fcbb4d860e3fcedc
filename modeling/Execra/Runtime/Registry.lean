import Execra.Model.Registry
import Execra.Runtime.Printing
import Execra.Runtime.Sharing

/-!
What a runtime answers when it is asked for a job. The answer comes from one of three
places: a job that was accepted answers with its snapshot, and everything else is as it
was when the runtime was built, for nobody writes the rows of other jobs. So a job that
was found once is found ever after, and its snapshot only advances.
-/

namespace Execra

/-! The snapshot of one job. -/

/-- What the snapshots of a job have in common. -/
def Job.identity (j : Job) : JobId × CommandSpec × SystemTime := (j.id, j.command, j.createdAt)

/-- A snapshot and a later one of the same job. -/
structure Job.Becomes (j j' : Job) : Prop extends j.Advances j' where
  identity : j'.identity = j.identity

theorem Job.Becomes.refl (j : Job) : j.Becomes j := ⟨.refl j, rfl⟩

theorem SnapshotUpdate.apply_identity (u : SnapshotUpdate) (j : Job) :
    (u.apply j).identity = j.identity := by
  cases u <;> rfl

theorem Sys.act_identity (cfg : Config) (w : Oracle) (o : Op) (s : Sys) :
    (s.act cfg w o).2.snapshot.identity = s.snapshot.identity := by
  cases o with
  | updateSnapshot u => exact u.apply_identity s.snapshot
  | upsertSnapshot =>
      simp only [Sys.act]
      cases hstore : s.store with
      | none => rw [Sys.upsertSnapshot_none hstore]
      | some store =>
          rw [Sys.upsertSnapshot_some hstore]
          split <;> rfl
  | openRawFile | spawnChild | writeRaw => simp only [Sys.act]; split <;> rfl
  | _ => rfl

theorem Sys.step_identity {cfg : Config} {s t : Sys} {l : Label} (h : s.step cfg l = some t) :
    t.snapshot.identity = s.snapshot.identity := by
  rcases (Sys.step_move h).frame with hdriver | ⟨-, hsame, -⟩
  · cases hdriver with
    | op w o k hctl => exact s.act_identity cfg w o
    | _ => rfl
  · rw [hsame]

theorem Entry.Move.becomes {e e' : Entry} {l : Option Label} (hruns : e.Runs)
    (h : e.Move l e') : e.sys.snapshot.Becomes e'.sys.snapshot := by
  cases h with
  | acquire w store s hstore hctl hstep | step l store s hstore hctl hstep =>
      have hidentity : s.snapshot.identity = (e.sys.withStore store).snapshot.identity :=
        Sys.step_identity hstep
      exact ⟨hruns.advances hstore hstep, hidentity⟩
  | release => exact .refl _

theorem Job.Becomes.trans {j₁ j₂ j₃ : Job} (h : j₁.Becomes j₂) (h' : j₂.Becomes j₃) :
    j₁.Becomes j₃ :=
  ⟨h.toAdvances.trans h'.toAdvances, h'.identity.trans h.identity⟩

/-! The rows of other jobs. -/

/-- Recovery leaves nothing for a second one. -/
theorem JobRow.resurrect_resurrect (row : JobRow) : row.resurrect.resurrect = row.resurrect := by
  by_cases hstranded : row.stranded = true
  · rw [resurrect_stranded hstranded, resurrect_finalized rfl]
  · have hsame : row.resurrect = row := if_neg hstranded
    rw [hsame, hsame]

namespace Runtime

/-- The row of a job in the history, if there is one. -/
def rowOf (rt : Runtime) (id : JobId) : Option JobRow := rt.store.bind (fun store => store.row id)

theorem loadJob_toOption (store : Store) (id : JobId) : (store.loadJob id).toOption.join =
    (store.row id).bind (fun row => row.decode.toOption) := by
  unfold Store.loadJob
  cases hrow : store.row id with
  | none => rfl
  | some row =>
      simp only [Option.bind_some]
      cases row.decode <;> rfl

/-- What answers for a job the runtime has not accepted. -/
theorem job_of_stranger {rt : Runtime} {id : JobId}
    (hnone : rt.jobs.find? (fun e => e.sys.snapshot.id = id) = none) :
    rt.job id = ((rt.persisted.find? (fun job => job.id = id)).or
      ((rt.rowOf id).bind (fun row => row.decode.toOption))) := by
  have hsnapshots : rt.snapshots.find? (fun job => job.id = id) =
      rt.persisted.find? (fun job => job.id = id) := by
    rw [snapshots, List.find?_append, List.find?_map]
    have hcomp : ((fun job : Job => decide (job.id = id)) ∘ fun e : Entry => e.sys.snapshot) =
        fun e => decide (e.sys.snapshot.id = id) := rfl
    rw [hcomp, hnone, Option.map_none, Option.or_none]
  unfold job
  rw [hsnapshots]
  cases hfound : rt.persisted.find? (fun job => job.id = id) with
  | some found => rfl
  | none =>
      rw [Option.none_or, rowOf, Option.bind_assoc]
      exact congrArg (Option.bind rt.store) (funext (fun store => loadJob_toOption store id))

/-- What a runtime has kept of what it knew when it was built. -/
structure Keeps (start rt : Runtime) : Prop where
  persisted : rt.persisted = start.persisted
  fresh : ∀ e ∈ rt.jobs, start.knows e.cfg.id = false
  rows : ∀ id, (∀ e ∈ rt.jobs, e.cfg.id ≠ id) → rt.rowOf id = start.rowOf id

/-- Recovery has passed over the rows of the history. -/
def Settled (start : Runtime) : Prop := ∀ id, ∀ row ∈ start.rowOf id, row.resurrect = row

variable {start rt rt' : Runtime} {l : RuntimeLabel}

/-- What was known is known. -/
theorem Keeps.knows (h : start.Keeps rt) (hstart : start.jobs = []) {id : JobId}
    (hknew : start.knows id = true) : rt.knows id = true := by
  by_cases hlive : ∃ e ∈ rt.jobs, e.cfg.id = id
  · obtain ⟨e, he, hid⟩ := hlive
    simp only [Runtime.knows, Bool.or_eq_true, List.any_eq_true]
    exact Or.inl (Or.inl ⟨e, he, decide_eq_true hid⟩)
  · have hrow := h.rows id (fun e he hid => hlive ⟨e, he, hid⟩)
    have hany : ∀ rt : Runtime, (rt.store.any (fun store => (store.row id).isSome)) =
        (rt.rowOf id).isSome := by
      intro rt
      unfold rowOf
      cases rt.store <;> rfl
    simp only [Runtime.knows, hstart, List.any_nil, Bool.false_or, h.persisted, hany, hrow]
      at hknew ⊢
    rw [Bool.or_assoc, hknew, Bool.or_true]

/-- A step of a job touches no row but its own. -/
theorem rowOf_of_step {e : Entry} {i : Nat} {own : Label} {s : Sys} {id : JobId}
    (hshares : rt.Shares) (he : rt.jobs[i]? = some e)
    (hstep : (e.sys.withStore rt.store).step e.cfg own = some s) (hother : e.cfg.id ≠ id) :
    s.store.bind (fun store => store.row id) = rt.rowOf id := by
  unfold rowOf
  cases Sys.step_upserts hstep with
  | kept hkept =>
      have hrow : ∀ store : Option Store, store.bind (fun store => store.row id) =
          (store.map Store.jobs).bind (fun rows => rows.find? (fun row => row.id = id)) := by
        intro store
        cases store <;> rfl
      rw [hrow, hrow, hkept]
      rfl
  | upsert found hfound hnew hsnapshot =>
      have hid : e.sys.snapshot.id ≠ id := by
        rw [(hshares e (List.mem_of_getElem? he)).2.snapshot_id]
        exact hother
      have hstore : rt.store = some found := hfound
      rw [hnew, hstore, Option.bind_some, Option.bind_some]
      exact found.row_upsertJob_of_ne hid

theorem Keeps.move (h : start.Keeps rt) (hstart : start.jobs = []) (hsettled : start.Settled)
    (hshares : rt.Shares) (hmove : rt.Move l rt') : start.Keeps rt' := by
  have hset : ∀ {i : Nat} {e e' : Entry} {store : Option Store} {permits : Nat},
      rt.jobs[i]? = some e → e'.cfg = e.cfg →
      (∀ id, e.cfg.id ≠ id → store.bind (fun store => store.row id) = rt.rowOf id) →
      start.Keeps { rt with store, permits, jobs := rt.jobs.set i e' } := by
    intro i e e' store permits he hcfg hrow
    have hmem : e ∈ rt.jobs := List.mem_of_getElem? he
    refine ⟨h.persisted, fun other hother => ?_, fun id hid => ?_⟩
    · rcases List.mem_or_eq_of_mem_set hother with hold | rfl
      · exact h.fresh other hold
      · rw [hcfg]
        exact h.fresh e hmem
    · have hids : ∀ other ∈ rt.jobs, other.cfg.id ≠ id := by
        intro other hother hsame
        obtain ⟨other', hother', heq⟩ := List.mem_map.mp
          ((map_id_set he hcfg).symm ▸ List.mem_map_of_mem (f := fun e => e.cfg.id) hother :
            other.cfg.id ∈ (rt.jobs.set i e').map (fun e => e.cfg.id))
        exact hid other' hother' (heq.trans hsame)
      exact (hrow id (hids e hmem)).trans (h.rows id hids)
  cases hmove with
  | refuse => exact h
  | spawn cfg upsertOk hfresh =>
      refine ⟨h.persisted, fun e he => ?_, fun id hid => ?_⟩
      · rcases List.mem_append.mp he with hold | hnew
        · exact h.fresh e hold
        · rw [List.mem_singleton.mp hnew]
          by_contra hknew
          have hknows := h.knows hstart (Bool.eq_true_of_not_eq_false hknew)
          exact absurd (hfresh.symm.trans hknows) Bool.false_ne_true
      · have hother : cfg.id ≠ id := hid (rt.accept cfg) (List.mem_append_right _ (by simp))
        rw [← h.rows id (fun e he => hid e (List.mem_append_left _ he))]
        unfold rowOf
        cases hstore : rt.store with
        | none => simp [accept, Sys.init, hstore]
        | some store =>
            simp only [accept, Sys.init, hstore, Option.map_some, Option.bind_some]
            exact store.row_upsertJob_of_ne hother
  | acquire i e w s he hctl hfree hstep =>
      exact hset he rfl (fun id hother => rowOf_of_step hshares he hstep hother)
  | job i e l s he hctl hstep =>
      exact hset he rfl (fun id hother => rowOf_of_step hshares he hstep hother)
  | release i e he hctl hheld => exact hset he rfl (fun id hother => rfl)
  | openHistory store hstore =>
      refine ⟨h.persisted, h.fresh, fun id hid => ?_⟩
      have hsame := h.rows id hid
      rw [rowOf, hstore, Option.bind_some] at hsame
      rw [rowOf, Option.bind_some, Store.row_resurrect, hsame]
      cases hrow : start.rowOf id with
      | none => rfl
      | some row => rw [Option.map_some, hsettled id row hrow]

theorem keeps_of_run (hstart : start.jobs = []) (hsettled : start.Settled)
    {ls : List RuntimeLabel} (hrun : Transition.run Runtime.step start ls = some rt) :
    start.Keeps rt ∧ rt.Shares ∧ rt.Distinct := by
  refine Transition.invariant_of_run (P := fun _ _ => True)
    (I := fun rt => start.Keeps rt ∧ rt.Shares ∧ rt.Distinct) ?_
    ⟨⟨rfl, fun e he => ?_, fun _ _ => rfl⟩, shares_of_none hstart, ?_⟩
    (Transition.stepsMeet_of_forall (fun _ _ => trivial) _ _) hrun
  · rintro rt l rt' ⟨h, hshares, hdistinct⟩ - hstep
    have hmove := step_move hstep
    exact ⟨h.move hstart hsettled hshares hmove, hmove.shares hshares, hmove.distinct hdistinct⟩
  · rw [hstart] at he
    cases he
  · unfold Distinct
    rw [hstart]
    exact List.nodup_nil

/-! The answer. -/

/-- An accepted job answers with its snapshot. -/
theorem job_of_entry (h : start.Keeps rt) (hshares : rt.Shares) (hdistinct : rt.Distinct)
    {e : Entry} (he : e ∈ rt.jobs) : rt.job e.cfg.id = some e.sys.snapshot := by
  have hids : ∀ e ∈ rt.jobs, e.sys.snapshot.id = e.cfg.id :=
    fun e he => (hshares e he).2.snapshot_id
  have hloaded : rt.persisted.find? (fun job => job.id = e.cfg.id) = none := by
    have hfresh := h.fresh e he
    simp only [knows, Bool.or_eq_false_iff] at hfresh
    rw [h.persisted]
    exact List.find?_eq_none.mpr (List.any_eq_false.mp hfresh.1.2)
  have hfound : (rt.jobs.map (fun e => e.sys.snapshot)).find? (fun job => job.id = e.cfg.id) =
      some e.sys.snapshot := by
    obtain ⟨found, hfound⟩ : ∃ found, (rt.jobs.map (fun e => e.sys.snapshot)).find?
        (fun job => job.id = e.cfg.id) = some found := by
      refine Option.isSome_iff_exists.mp (List.find?_isSome.mpr ?_)
      exact ⟨_, List.mem_map_of_mem he, decide_eq_true (hids e he)⟩
    obtain ⟨other, hother, hsame⟩ := List.mem_map.mp (List.mem_of_find?_eq_some hfound)
    have hid : other.cfg.id = e.cfg.id := by
      rw [← hids other hother, hsame]
      exact of_decide_eq_true (List.find?_some hfound :)
    have heq : other = e := List.inj_on_of_nodup_map hdistinct hother he hid
    rw [hfound, ← hsame, heq]
  unfold job snapshots
  rw [List.find?_append, hloaded, Option.none_or, hfound]

/-- Everything else answers as it did at the start. -/
theorem job_of_none (h : start.Keeps rt) (hstart : start.jobs = []) (hshares : rt.Shares)
    {id : JobId} (hnone : ∀ e ∈ rt.jobs, e.cfg.id ≠ id) : rt.job id = start.job id := by
  have hlive : rt.jobs.find? (fun e => e.sys.snapshot.id = id) = none := by
    refine List.find?_eq_none.mpr (fun e he => ?_)
    rw [(hshares e he).2.snapshot_id, decide_eq_true_iff]
    exact hnone e he
  have hnobody : start.jobs.find? (fun e => e.sys.snapshot.id = id) = none := by
    rw [hstart]
    rfl
  rw [job_of_stranger hlive, job_of_stranger hnobody, h.persisted, h.rows id hnone]

theorem knows_of_job {id : JobId} {found : Job} (h : start.job id = some found)
    (hstart : start.jobs = []) : start.knows id = true := by
  have hnobody : start.jobs.find? (fun e => e.sys.snapshot.id = id) = none := by
    rw [hstart]
    rfl
  rw [job_of_stranger hnobody, Option.or_eq_some_iff] at h
  simp only [knows, Bool.or_eq_true]
  rcases h with hloaded | ⟨-, hstored⟩
  · exact Or.inl (Or.inr (List.any_eq_true.mpr
      ⟨found, List.mem_of_find?_eq_some hloaded, (List.find?_some hloaded :)⟩))
  · obtain ⟨row, hrow, -⟩ := Option.bind_eq_some_iff.mp hstored
    obtain ⟨store, hstore, hfound⟩ := Option.bind_eq_some_iff.mp hrow
    exact Or.inr (by rw [hstore, Option.any_some, hfound, Option.isSome_some])

/-- A runtime that was built has just recovered its history. -/
theorem settled_of_build {config : RuntimeConfig} {maxConcurrent : Nat} {history : Option Store}
    (h : build config maxConcurrent history = .ok start) : start.Settled := by
  intro id row hrow
  obtain ⟨store, hstore, hfound⟩ := Option.bind_eq_some_iff.mp hrow
  cases history with
  | none =>
      cases h
      cases hstore
  | some found =>
      rw [(build_ok h).1] at hstore
      cases hstore
      rw [Store.row_resurrect] at hfound
      obtain ⟨old, -, rfl⟩ := Option.map_eq_some_iff.mp hfound
      exact old.resurrect_resurrect

end Runtime

section Known

variable {config : RuntimeConfig} {maxConcurrent : Nat} {history : Option Store}
  {start rt rt' : Runtime} {ls more : List RuntimeLabel}

theorem Runtime.job_becomes (hbuild : Runtime.build config maxConcurrent history = .ok start)
    (hrun : Transition.run Runtime.step start ls = some rt)
    (hmore : Transition.run Runtime.step rt more = some rt') {id : JobId} {j : Job}
    (hj : rt.job id = some j) : ∃ j', rt'.job id = some j' ∧ j.Becomes j' := by
  have hstart := Runtime.build_jobs hbuild
  have hsettled := Runtime.settled_of_build hbuild
  obtain ⟨h, hshares, hdistinct⟩ := Runtime.keeps_of_run hstart hsettled hrun
  have hboth : Transition.run Runtime.step start (ls ++ more) = some rt' := by
    rw [Transition.run_append, hrun]
    exact hmore
  obtain ⟨h', hshares', hdistinct'⟩ := Runtime.keeps_of_run hstart hsettled hboth
  by_cases hlive : ∃ e ∈ rt.jobs, e.cfg.id = id
  · obtain ⟨e, he, rfl⟩ := hlive
    obtain ⟨i, hi⟩ := List.mem_iff_getElem?.mp he
    obtain ⟨e', he', hcfg, hbecomes⟩ := Runtime.run_entry
      (I := fun e' => e.sys.snapshot.Becomes e'.sys.snapshot)
      (fun m own m' hruns hI hmove => hI.trans (hmove.becomes hruns)) hshares hi (.refl _) hmore
    have hanswer := Runtime.job_of_entry h' hshares' hdistinct' (List.mem_of_getElem? he')
    rw [hcfg] at hanswer
    cases (Runtime.job_of_entry h hshares hdistinct he).symm.trans hj
    exact ⟨_, hanswer, hbecomes⟩
  · have hnone : ∀ e ∈ rt.jobs, e.cfg.id ≠ id := fun e he hid => hlive ⟨e, he, hid⟩
    rw [Runtime.job_of_none h hstart hshares hnone] at hj
    have hnone' : ∀ e ∈ rt'.jobs, e.cfg.id ≠ id := by
      intro e he hid
      have hknew := Runtime.knows_of_job hj hstart
      rw [← hid, h'.fresh e he] at hknew
      cases hknew
    exact ⟨j, (Runtime.job_of_none h' hstart hshares' hnone').trans hj, .refl j⟩

/-- A runtime answers for each job it has accepted with the snapshot of that job. Whatever
it answers at one moment it answers at every later one with the same job, whose state has
not moved back, and which has not changed at all once it was finalized. Nobody else writes
to the history, but by opening it. -/
theorem known_jobs_advance (hbuild : Runtime.build config maxConcurrent history = .ok start)
    (hrun : Transition.run Runtime.step start ls = some rt)
    (hmore : Transition.run Runtime.step rt more = some rt') :
    (∀ e ∈ rt.jobs, rt.job e.cfg.id = some e.sys.snapshot) ∧
    ∀ id j, rt.job id = some j → ∃ j', rt'.job id = some j' ∧ j.Becomes j' := by
  obtain ⟨h, hshares, hdistinct⟩ :=
    Runtime.keeps_of_run (Runtime.build_jobs hbuild) (Runtime.settled_of_build hbuild) hrun
  exact ⟨fun e he => Runtime.job_of_entry h hshares hdistinct he,
    fun id j hj => Runtime.job_becomes hbuild hrun hmore hj⟩

theorem storedRuntime_built : Runtime.build {} 1 (some {}) = .ok storedRuntime := rfl

/-- Two jobs were accepted, and nothing more has happened. -/
theorem storedTwo_runs : (Transition.run Runtime.step storedRuntime spawnTwo).isSome = true := by
  decide

def storedTwo : Runtime := Transition.endOf _ _ spawnTwo storedTwo_runs

/-- From there one of them is over, and the other runs. -/
def serialRest : List RuntimeLabel :=
  onJob 1 (drive 2) ++ onJob 0 (drive 12 ++ leaveQuietly ++ drive 18) ++ [.release 0] ++
    onJob 1 (drive 10)

theorem serialRest_runs : (Transition.run Runtime.step storedTwo serialRest).isSome = true := by
  decide

def serialRestEnd : Runtime := Transition.endOf _ _ serialRest serialRest_runs

theorem known_jobs_advance_serial :
    storedTwo.job ⟨0⟩ = some plainConfig.initialJob ∧
    ∃ j, serialRestEnd.job ⟨0⟩ = some j ∧ j.state = .finalized ∧
      plainConfig.initialJob.Becomes j := by
  have hknown : storedTwo.job ⟨0⟩ = some plainConfig.initialJob := by decide
  obtain ⟨j, hj, hbecomes⟩ := (known_jobs_advance storedRuntime_built
    (Transition.run_endOf storedRuntime spawnTwo storedTwo_runs)
    (Transition.run_endOf storedTwo serialRest serialRest_runs)).2 _ _ hknown
  have hfinal : (serialRestEnd.job ⟨0⟩).map Job.state = some .finalized := by decide
  have hanswer : serialRestEnd.job ⟨0⟩ = some j := hj
  rw [hanswer, Option.map_some] at hfinal
  exact ⟨hknown, j, hanswer, Option.some.inj hfinal, hbecomes⟩

/-! Jobs that run. -/

/-- `Queued` or `Running`. -/
def Job.IsOpen (j : Job) : Prop := j.state = .queued ∨ j.state = .running

instance (j : Job) : Decidable j.IsOpen := inferInstanceAs (Decidable (_ ∨ _))

theorem Job.isOpen_iff (j : Job) : j.IsOpen ↔ j.state.rank ≤ 1 := by
  unfold IsOpen
  cases j.state <;> simp [JobState.rank]

theorem JobState.toText_of_ofText {text : String} {state : JobState}
    (h : ofText text = .ok state) : text = state.toText := by
  unfold ofText at h
  split_ifs at h <;> cases h <;> assumption

theorem JobRow.decode_core {row : JobRow} {j : Job} (h : row.decode = .ok j) :
    j.id = row.id ∧ row.state = j.state.toText := by
  unfold decode buildJob at h
  cases hversion : checkSchemaVersion row.schemaVersion with
  | error err => rw [hversion] at h; cases h
  | ok _ =>
      rw [hversion] at h
      cases htext : JobState.ofText row.state with
      | error err => rw [htext] at h; cases h
      | ok state =>
          rw [htext] at h
          cases h
          exact ⟨rfl, JobState.toText_of_ofText htext⟩

/-- A row that recovery passes over is not that of an open job. -/
theorem JobRow.decode_closed {row : JobRow} (hsettled : row.resurrect = row) {j : Job}
    (hdecode : row.decode = .ok j) : ¬ j.IsOpen := by
  intro hopen
  have hstate := (row.decode_core hdecode).2
  have hstranded : row.stranded = true := by
    unfold stranded
    rcases hopen with hopen | hopen <;> rw [hstate, hopen] <;> rfl
  have hfinal : row.state = "finalized" := by rw [← hsettled, resurrect_stranded hstranded]
  rw [hstate] at hfinal
  rcases hopen with hopen | hopen <;> rw [hopen] at hfinal <;> exact absurd hfinal (by decide)

/-- A runtime is built with the jobs that are listed after the recovery. -/
theorem Runtime.build_loaded {found : Store}
    (h : Runtime.build config maxConcurrent (some found) = .ok start) :
    found.resurrectStrandedJobs.1.listJobs 10000 {} = .ok start.persisted := by
  unfold Runtime.build at h
  cases hlist : found.resurrectStrandedJobs.1.listJobs 10000 {} with
  | error err =>
      simp only [hlist] at h
      cases h
  | ok jobs =>
      simp only [hlist] at h
      cases h
      rfl

/-- What a runtime was built with is closed. -/
theorem Runtime.closed_of_build (hbuild : Runtime.build config maxConcurrent history = .ok start) :
    (∀ j ∈ start.persisted, ¬ j.IsOpen) ∧ ∀ id j, start.job id = some j → ¬ j.IsOpen := by
  have hloaded : ∀ j ∈ start.persisted, ¬ j.IsOpen := by
    intro j hj
    cases history with
    | none =>
        cases hbuild
        cases hj
    | some found =>
        obtain ⟨row, hrow, hdecode⟩ := (mem_of_mapM (Runtime.build_loaded hbuild) j).mp hj
        have hmem := List.mem_of_mem_filter ((List.mem_insertionSort _).mp (mem_of_limited hrow))
        obtain ⟨old, -, rfl⟩ := List.mem_map.mp hmem
        exact JobRow.decode_closed old.resurrect_resurrect hdecode
  refine ⟨hloaded, fun id j hj => ?_⟩
  have hnobody : start.jobs.find? (fun e => e.sys.snapshot.id = id) = none := by
    rw [Runtime.build_jobs hbuild]
    rfl
  rw [Runtime.job_of_stranger hnobody, Option.or_eq_some_iff] at hj
  rcases hj with hfound | ⟨-, hstored⟩
  · exact hloaded j (List.mem_of_find?_eq_some hfound)
  · obtain ⟨row, hrow, hdecode⟩ := Option.bind_eq_some_iff.mp hstored
    refine JobRow.decode_closed (Runtime.settled_of_build hbuild id row hrow) ?_
    cases hresult : row.decode with
    | error err => rw [hresult] at hdecode; cases hdecode
    | ok found =>
        rw [hresult] at hdecode
        exact congrArg Except.ok (Option.some.inj hdecode)

/-- The jobs that `running` lists are among those that were accepted. -/
theorem Runtime.running_eq (hclosed : ∀ j ∈ rt.persisted, ¬ j.IsOpen) :
    rt.running = ((rt.jobs.filter (fun e => e.sys.snapshot.state = .queued ∨
      e.sys.snapshot.state = .running)).map (fun e => e.sys.snapshot.id)) := by
  have hloaded : rt.persisted.filter (fun job => job.state = .queued ∨ job.state = .running) =
      [] := by
    refine List.filter_eq_nil_iff.mpr (fun j hj => ?_)
    rw [decide_eq_true_iff]
    exact hclosed j hj
  rw [running, snapshots, List.filter_append, hloaded, List.nil_append, List.filter_map,
    List.map_map]
  rfl

/-- `running` lists every job once for which the runtime answers that it is queued or
running, and no other; and a job that it has stopped listing never returns to the list.
Nobody else writes to the history, but by opening it. -/
theorem running_lists_open_jobs
    (hbuild : Runtime.build config maxConcurrent history = .ok start)
    (hrun : Transition.run Runtime.step start ls = some rt)
    (hmore : Transition.run Runtime.step rt more = some rt') :
    rt.running.Nodup ∧ (∀ id, id ∈ rt.running ↔ ∃ j, rt.job id = some j ∧ j.IsOpen) ∧
      ∀ id ∈ rt'.running, id ∈ rt.running ∨ rt.job id = none := by
  have hstart := Runtime.build_jobs hbuild
  obtain ⟨hloaded, hstored⟩ := Runtime.closed_of_build hbuild
  have hlists : ∀ {ls : List RuntimeLabel} {rt : Runtime},
      Transition.run Runtime.step start ls = some rt →
      rt.running.Nodup ∧ ∀ id, id ∈ rt.running ↔ ∃ j, rt.job id = some j ∧ j.IsOpen := by
    intro ls rt hrun
    obtain ⟨h, hshares, hdistinct⟩ :=
      Runtime.keeps_of_run hstart (Runtime.settled_of_build hbuild) hrun
    have hids : ∀ e ∈ rt.jobs, e.sys.snapshot.id = e.cfg.id :=
      fun e he => (hshares e he).2.snapshot_id
    rw [Runtime.running_eq (h.persisted ▸ hloaded)]
    refine ⟨?_, fun id => ⟨fun hid => ?_, ?_⟩⟩
    · rw [List.map_congr_left (fun e he => hids e (List.mem_of_mem_filter he))]
      exact hdistinct.sublist (List.filter_sublist.map _)
    · obtain ⟨e, he, rfl⟩ := List.mem_map.mp hid
      obtain ⟨hmem, hopen⟩ := List.mem_filter.mp he
      rw [hids e hmem]
      exact ⟨_, Runtime.job_of_entry h hshares hdistinct hmem, of_decide_eq_true hopen⟩
    · rintro ⟨j, hj, hopen⟩
      by_cases hlive : ∃ e ∈ rt.jobs, e.cfg.id = id
      · obtain ⟨e, he, rfl⟩ := hlive
        cases (Runtime.job_of_entry h hshares hdistinct he).symm.trans hj
        have hlisted := decide_eq_true (show e.sys.snapshot.IsOpen from hopen)
        exact List.mem_map.mpr ⟨e, List.mem_filter.mpr ⟨he, hlisted⟩, hids e he⟩
      · have hnone : ∀ e ∈ rt.jobs, e.cfg.id ≠ id := fun e he hid => hlive ⟨e, he, hid⟩
        rw [Runtime.job_of_none h hstart hshares hnone] at hj
        exact absurd hopen (hstored id j hj)
  refine ⟨(hlists hrun).1, (hlists hrun).2, fun id hid => ?_⟩
  have hboth : Transition.run Runtime.step start (ls ++ more) = some rt' := by
    rw [Transition.run_append, hrun]
    exact hmore
  obtain ⟨j', hj', hopen'⟩ := ((hlists hboth).2 id).mp hid
  cases hj : rt.job id with
  | none => exact Or.inr rfl
  | some j =>
      left
      obtain ⟨later, hlater, hbecomes⟩ := Runtime.job_becomes hbuild hrun hmore hj
      cases hlater.symm.trans hj'
      refine ((hlists hrun).2 id).mpr ⟨j, hj, (Job.isOpen_iff j).mpr ?_⟩
      exact hbecomes.forward.trans ((Job.isOpen_iff j').mp hopen')

theorem running_lists_open_jobs_serial :
    storedTwo.running = [⟨0⟩, ⟨1⟩] ∧ serialRestEnd.running = [⟨1⟩] ∧
    ∀ id ∈ serialRestEnd.running, id ∈ storedTwo.running ∨ storedTwo.job id = none :=
  ⟨by decide, by decide, (running_lists_open_jobs storedRuntime_built
    (Transition.run_endOf storedRuntime spawnTwo storedTwo_runs)
    (Transition.run_endOf storedTwo serialRest serialRest_runs)).2.2⟩

end Known

end Execra
