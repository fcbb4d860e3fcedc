import Execra.Job.Filing
import Execra.Runtime.Registry

/-!
The history of a whole runtime. The jobs file their events in one table, and a step of one
job adds rows of that job only. No foreign key ties the rows of events and findings to a
row of the jobs table, and yet there is none without: a job has its row before its driver
does anything, and no row of the jobs table is ever removed.
-/

namespace Execra

/-! Every row belongs to a job. -/

/-- Every event and every finding belongs to a job of the jobs table. -/
structure Store.Rooted (store : Store) : Prop where
  events : ∀ row ∈ store.events, (store.row row.jobId).isSome
  findings : ∀ row ∈ store.findings, (store.row row.jobId).isSome

namespace Store

variable {store : Store} {id : JobId}

theorem isSome_row_upsertJob (job : Job) (h : (store.row id).isSome) :
    ((store.upsertJob job).row id).isSome := by
  by_cases hid : job.id = id
  · rw [← hid, row_upsertJob]
    rfl
  · rw [store.row_upsertJob_of_ne hid]
    exact h

theorem Rooted.upsertJob (h : store.Rooted) (job : Job) : (store.upsertJob job).Rooted :=
  ⟨fun row hrow => isSome_row_upsertJob job (h.events row hrow),
    fun row hrow => isSome_row_upsertJob job (h.findings row hrow)⟩

theorem isSome_row_resurrect (h : (store.row id).isSome) :
    (store.resurrectStrandedJobs.1.row id).isSome := by
  rw [row_resurrect, Option.isSome_map]
  exact h

theorem Rooted.resurrect (h : store.Rooted) : store.resurrectStrandedJobs.1.Rooted :=
  ⟨fun row hrow => isSome_row_resurrect (h.events row hrow),
    fun row hrow => isSome_row_resurrect (h.findings row hrow)⟩

/-- Every row of `store'` that is none of `store` belongs to the job. -/
structure Gains (store store' : Store) (id : JobId) : Prop where
  events : ∀ row ∈ store'.events, row ∈ store.events ∨ row.jobId = id
  findings : ∀ row ∈ store'.findings, row ∈ store.findings ∨ row.jobId = id

theorem gains_insertEventRow (event : Event) :
    store.Gains (store.insertEventRow event) event.job := by
  refine ⟨fun row hrow => ?_, fun row hrow => Or.inl hrow⟩
  rcases List.mem_append.mp hrow with hold | hnew
  · exact Or.inl hold
  · exact Or.inr (by rw [List.mem_singleton.mp hnew])

theorem gains_insertFindingRow (job : JobId) (finding : Finding) :
    store.Gains (store.insertFindingRow job finding) job := by
  refine ⟨fun row hrow => Or.inl hrow, fun row hrow => ?_⟩
  rcases List.mem_append.mp hrow with hold | hnew
  · exact Or.inl hold
  · exact Or.inr (by rw [List.mem_singleton.mp hnew])

theorem Gains.refl (store : Store) (id : JobId) : store.Gains store id :=
  ⟨fun _ h => Or.inl h, fun _ h => Or.inl h⟩

theorem Gains.trans {store' store'' : Store} (h : store.Gains store' id)
    (h' : store'.Gains store'' id) : store.Gains store'' id :=
  ⟨fun row hrow => (h'.events row hrow).elim (h.events row) Or.inr,
    fun row hrow => (h'.findings row hrow).elim (h.findings row) Or.inr⟩

/-- An insert adds rows of the event's job only, whichever of its statements fail. -/
theorem gains_insertEvent (event : Event) (a b : Bool) :
    store.Gains (store.insertEvent event a b).1 event.job := by
  unfold insertEvent
  cases event.body with
  | outputAppended => exact .refl store _
  | findingEmitted finding =>
      dsimp only
      split
      · cases b with
        | false => exact gains_insertEventRow event
        | true => exact (gains_insertEventRow event).trans (gains_insertFindingRow _ finding)
      · exact .refl store _
  | _ =>
      dsimp only
      split
      · exact gains_insertEventRow event
      · exact .refl store _

theorem Rooted.insertEvent (h : store.Rooted) {event : Event}
    (hjob : (store.row event.job).isSome) (a b : Bool) :
    (store.insertEvent event a b).1.Rooted := by
  have hgains := store.gains_insertEvent event a b
  constructor
  · intro row hrow
    rw [insertEvent_row]
    rcases hgains.events row hrow with hold | hnew
    · exact h.events row hold
    · rw [hnew]
      exact hjob
  · intro row hrow
    rw [insertEvent_row]
    rcases hgains.findings row hrow with hold | hnew
    · exact h.findings row hold
    · rw [hnew]
      exact hjob

end Store

/-! A step of one job. -/

theorem Sys.inserted_withStore (cfg : Config) (s : Sys) (store : Option Store) (l : Label) :
    (s.withStore store).inserted cfg l = s.inserted cfg l := by
  cases l <;> rfl

theorem Sys.Inserted.withStore {cfg : Config} {s : Sys} {stored : List Event}
    (h : s.Inserted cfg stored) (store : Option Store) : (s.withStore store).Inserted cfg stored :=
  ⟨h.own, h.cancelled, h.waits⟩

section Step

variable {cfg : Config} {s t : Sys} {l : Label} {store : Store} {stored : List Event}

/-- A step of a job keeps the rows of the jobs table, and what it adds belongs to its job. -/
theorem Sys.step_rooted (hjob : ∀ e ∈ s.inserted cfg l, e.job = cfg.id)
    (hstore : s.store = some store) (hrooted : store.Rooted)
    (hrow : (store.row cfg.id).isSome) (hstep : s.step cfg l = some t) :
    ∃ store', t.store = some store' ∧ store'.Rooted ∧
      ∀ id, (store.row id).isSome → (store'.row id).isSome := by
  have hinsert : ∀ e w, e.job = cfg.id → ∃ store', (s.insertEvent e w).store = some store' ∧
      store'.Rooted ∧ ∀ id, (store.row id).isSome → (store'.row id).isSome := by
    intro e w he
    refine ⟨_, by rw [insertEvent, hstore]; rfl, ?_, ?_⟩
    · exact hrooted.insertEvent (he ▸ hrow) _ _
    · intro id hid
      rw [Store.insertEvent_row]
      exact hid
  have hwrites := Sys.step_writes hstep
  generalize t.store = after at hwrites ⊢
  cases hwrites with
  | keeps l hquiet => exact ⟨store, hstore, hrooted, fun _ h => h⟩
  | upserts w hquiet =>
      rw [Sys.upsertSnapshot_some hstore]
      split
      · exact ⟨_, rfl, hrooted.upsertJob _, fun _ h => Store.isSome_row_upsertJob _ h⟩
      · exact ⟨store, hstore, hrooted, fun _ h => h⟩
  | driver w e he => exact hinsert e w (hjob e (by simp [inserted, he]))
  | wait c w e he => exact hinsert e w (hjob e (by simp [inserted, he]))

/-- What a step adds to the events when its insert is `Ok`. -/
theorem Sys.step_events (hok : s.InsertsSucceed cfg l) (h : s.Inserted cfg stored)
    (hstore : s.store = some store) (hstep : s.step cfg l = some t) :
    ∃ store', t.store = some store' ∧
      store'.events = store.events ++ (s.inserted cfg l).map EventRow.ofEvent := by
  have hinserted := h.inserted l
  have hinsert : ∀ e w, s.inserted cfg l = [e] → e.InsertsOk w →
      ∃ store', (s.insertEvent e w).store = some store' ∧
        store'.events = store.events ++ (s.inserted cfg l).map EventRow.ofEvent := by
    intro e w he hw
    refine ⟨_, by rw [insertEvent, hstore]; rfl, ?_⟩
    have hkept := (hinserted e (by rw [he]; simp)).1
    rw [he, hw.1, hw.2.1, store.insertEvent_events hkept hw.2.2]
    rfl
  have hwrites := Sys.step_writes hstep
  generalize t.store = after at hwrites ⊢
  cases hwrites with
  | keeps l hquiet => exact ⟨store, hstore, by rw [hquiet]; simp⟩
  | upserts w hquiet =>
      have hnone : s.inserted cfg (.driver w) = [] := by rw [inserted, hquiet]; rfl
      rw [Sys.upsertSnapshot_some hstore, hnone]
      split
      · exact ⟨_, rfl, (List.append_nil _).symm⟩
      · exact ⟨store, hstore, (List.append_nil _).symm⟩
  | driver w e he => exact hinsert e w (by simp [inserted, he]) (hok e he)
  | wait c w e he => exact hinsert e w (by simp [inserted, he]) (hok e he)

end Step

/-- Every insert is `Ok`. -/
def Runtime.InsertsSucceed (rt : Runtime) : RuntimeLabel → Prop
  | .job i l => ∀ e ∈ rt.jobs[i]?, e.sys.InsertsSucceed e.cfg l
  | _ => True

instance (rt : Runtime) : (l : RuntimeLabel) → Decidable (rt.InsertsSucceed l)
  | .job i l => inferInstanceAs (Decidable (∀ e ∈ rt.jobs[i]?, e.sys.InsertsSucceed e.cfg l))
  | .spawn _ _ | .release _ | .openHistory => inferInstanceAs (Decidable True)

namespace Runtime

/-- The tables are rooted, and the jobs that were accepted have their rows. -/
def Rooted (rt : Runtime) : Prop :=
  ∀ store ∈ rt.store, store.Rooted ∧ ∀ e ∈ rt.jobs, (store.row e.cfg.id).isSome

/-- On file is, for each job, what it has tried to file. -/
def Filed (rt : Runtime) : Prop :=
  ∀ store ∈ rt.store, ∀ e ∈ rt.jobs, ∃ stored,
    store.eventRows e.cfg.id = stored.map EventRow.ofEvent ∧ e.sys.Inserted e.cfg stored

variable {rt rt' : Runtime} {l : RuntimeLabel}

theorem rows_set {i : ℕ} {e : Entry} (e' : Entry) (he : rt.jobs[i]? = some e)
    (hcfg : e'.cfg = e.cfg) {store : Store}
    (h : ∀ e ∈ rt.jobs, (store.row e.cfg.id).isSome) :
    ∀ other ∈ rt.jobs.set i e', (store.row other.cfg.id).isSome := by
  intro other hother
  rcases List.mem_or_eq_of_mem_set hother with hold | rfl
  · exact h other hold
  · rw [hcfg]
    exact h e (List.mem_of_getElem? he)

theorem store_of_accept {cfg : Config} {store : Store} (hstore : rt.store = some store) :
    (rt.accept cfg).sys.store = some (store.upsertJob cfg.initialJob) := by
  simp only [accept, Sys.init, hstore, Option.map_some]
  rfl

/-- The events a job inserts are its own. -/
theorem job_of_inserted {e : Entry} (hruns : e.Runs) (store : Option Store) (own : Label) :
    ∀ event ∈ (e.sys.withStore store).inserted e.cfg own, event.job = e.cfg.id := by
  obtain ⟨before, -, hreach⟩ := hruns
  obtain ⟨tried, hfiled⟩ := hreach.inserts_filed
  rw [Sys.inserted_withStore, ← e.sys.inserted_withStore e.cfg before]
  exact fun event hevent => (hfiled.inserted own event hevent).2

theorem Rooted.move (h : rt.Rooted) (hshares : rt.Shares) (hmove : rt.Move l rt') :
    rt'.Rooted := by
  intro store' hstore'
  obtain ⟨store, hstore⟩ := hmove.had_store hstore'
  obtain ⟨hrooted, hrows⟩ := h store hstore
  have hjob : ∀ {i : ℕ} {e : Entry} {own : Label} {s : Sys} (permit : Permit),
      rt.jobs[i]? = some e → (e.sys.withStore rt.store).step e.cfg own = some s →
      s.store = some store' → store'.Rooted ∧
        ∀ other ∈ rt.jobs.set i { e with sys := s, permit }, (store'.row other.cfg.id).isSome := by
    intro i e own s permit he hstep hafter
    have hmem := List.mem_of_getElem? he
    have hbefore : (e.sys.withStore rt.store).store = some store := hstore
    obtain ⟨after, hsame, hrooted', hkeeps⟩ := Sys.step_rooted
      (job_of_inserted (hshares e hmem).2 rt.store own) hbefore hrooted (hrows e hmem) hstep
    cases hsame.symm.trans hafter
    exact ⟨hrooted', rows_set { e with sys := s, permit } he rfl
      (fun e he => hkeeps _ (hrows e he))⟩
  cases hmove with
  | refuse =>
      cases hstore.symm.trans hstore'
      exact ⟨hrooted, hrows⟩
  | spawn cfg upsertOk hfresh =>
      cases (store_of_accept hstore).symm.trans hstore'
      refine ⟨hrooted.upsertJob _, fun e he => ?_⟩
      rcases List.mem_append.mp he with hold | hnew
      · exact Store.isSome_row_upsertJob _ (hrows e hold)
      · have hrow : ((store.upsertJob cfg.initialJob).row cfg.initialJob.id).isSome := by
          rw [Store.row_upsertJob]
          rfl
        rw [List.mem_singleton.mp hnew]
        exact hrow
  | acquire i e w s he hctl hfree hstep => exact hjob .held he hstep hstore'
  | job i e l s he hctl hstep => exact hjob e.permit he hstep hstore'
  | release i e he =>
      cases hstore.symm.trans hstore'
      exact ⟨hrooted, rows_set { e with permit := .released } he rfl hrows⟩
  | openHistory found hfound =>
      cases hstore.symm.trans hfound
      cases hstore'
      exact ⟨hrooted.resurrect, fun e he => Store.isSome_row_resurrect (hrows e he)⟩

/-- No event of a job the runtime does not know is on file. -/
theorem eventRows_of_fresh {store : Store} (hrooted : store.Rooted)
    (hstore : rt.store = some store) {id : JobId} (hfresh : rt.knows id = false) :
    store.eventRows id = [] := by
  refine List.filter_eq_nil_iff.mpr (fun row hrow hid => ?_)
  have hsome := hrooted.events row hrow
  rw [of_decide_eq_true hid] at hsome
  simp only [knows, hstore, Option.any_some, Bool.or_eq_false_iff] at hfresh
  rw [hfresh.2] at hsome
  cases hsome

/-- Rows that are added belong to one job. -/
theorem eventRows_append {store store' : Store} {id : JobId} {added : List Event}
    (h : store'.events = store.events ++ added.map EventRow.ofEvent)
    (hjob : ∀ event ∈ added, event.job = id) (other : JobId) :
    store'.eventRows other = store.eventRows other ++
      if other = id then added.map EventRow.ofEvent else [] := by
  have hadded : (added.map EventRow.ofEvent).filter (fun row => row.jobId = other) =
      if other = id then added.map EventRow.ofEvent else [] := by
    split
    · next hid =>
        refine List.filter_eq_self.mpr (fun row hrow => ?_)
        obtain ⟨event, hevent, rfl⟩ := List.mem_map.mp hrow
        exact decide_eq_true ((hjob event hevent).trans hid.symm)
    · next hid =>
        refine List.filter_eq_nil_iff.mpr (fun row hrow hsame => hid ?_)
        obtain ⟨event, hevent, rfl⟩ := List.mem_map.mp hrow
        exact (of_decide_eq_true hsame).symm.trans (hjob event hevent)
  unfold Store.eventRows
  rw [h, List.filter_append, hadded]

theorem Filed.move (h : rt.Filed) (hrooted : rt.Rooted) (hshares : rt.Shares)
    (hdistinct : rt.Distinct) (hok : rt.InsertsSucceed l) (hmove : rt.Move l rt') :
    rt'.Filed := by
  intro store' hstore'
  obtain ⟨store, hstore⟩ := hmove.had_store hstore'
  have hjob : ∀ {i : ℕ} {e : Entry} {own : Label} {s : Sys} (permit : Permit),
      l = .job i own → rt.jobs[i]? = some e →
      (e.sys.withStore rt.store).step e.cfg own = some s → s.store = some store' →
      ∀ other ∈ rt.jobs.set i { e with sys := s, permit }, ∃ stored,
        store'.eventRows other.cfg.id = stored.map EventRow.ofEvent ∧
          other.sys.Inserted other.cfg stored := by
    rintro i e own s permit rfl he hstep hafter other hother
    have hmem := List.mem_of_getElem? he
    obtain ⟨hsome, before, hbefore, hreach⟩ := hshares e hmem
    obtain ⟨stored, hrows, hfiled⟩ := h store hstore e hmem
    have hown : (e.sys.withStore rt.store).store = some store := hstore
    have hinserts : (e.sys.withStore rt.store).InsertsSucceed e.cfg own := by
      have hsucceeds := hok e he
      cases own <;> exact hsucceeds
    obtain ⟨after, hsame, hevents⟩ :=
      Sys.step_events hinserts (hfiled.withStore rt.store) hown hstep
    cases hsame.symm.trans hafter
    have hadded := eventRows_append hevents (job_of_inserted (hshares e hmem).2 rt.store own)
    rw [Sys.inserted_withStore] at hadded
    rcases getElem?_of_set (List.mem_iff_getElem?.mp hother).choose_spec with ⟨-, rfl⟩ | ⟨hij, hold⟩
    · refine ⟨stored ++ e.sys.inserted e.cfg own, ?_, ?_⟩
      · rw [hadded, if_pos rfl, hrows, List.map_append]
      · obtain ⟨-, after', -, hstep'⟩ := Sys.step_store (hbefore.trans hsome.symm) hstep
        have hnext := (hfiled.withStore before).step hreach hstep'
        rw [Sys.inserted_withStore] at hnext
        exact hnext.withStore s.store
    · obtain ⟨stored', hrows', hfiled'⟩ := h store hstore other (List.mem_of_getElem? hold)
      have hid : other.cfg.id ≠ e.cfg.id := fun hid => hij (hdistinct.same he hold hid.symm)
      exact ⟨stored', by rw [hadded, if_neg hid, List.append_nil, hrows'], hfiled'⟩
  cases hmove with
  | refuse => exact h store' hstore'
  | spawn cfg upsertOk hfresh =>
      intro e he
      cases (store_of_accept hstore).symm.trans hstore'
      rcases List.mem_append.mp he with hold | hnew
      · exact h store hstore e hold
      · rw [List.mem_singleton.mp hnew]
        have hnone := eventRows_of_fresh (hrooted store hstore).1 hstore hfresh
        exact ⟨[], hnone, Sys.inserted_init⟩
  | acquire i e w s he hctl hfree hstep => exact hjob .held rfl he hstep hstore'
  | job i e l s he hctl hstep => exact hjob e.permit rfl he hstep hstore'
  | release i e he =>
      intro other hother
      rcases List.mem_or_eq_of_mem_set hother with hold | rfl
      · exact h store' hstore' other hold
      · exact h store' hstore' e (List.mem_of_getElem? he)
  | openHistory found hfound =>
      intro e he
      cases hstore.symm.trans hfound
      cases hstore'
      exact h store hstore e he

/-- What the runtime's history can be relied on for. -/
structure Recorded (rt : Runtime) : Prop where
  rooted : rt.Rooted
  filed : rt.Filed
  shares : rt.Shares
  distinct : rt.Distinct

theorem Recorded.step (h : rt.Recorded) (hok : rt.InsertsSucceed l)
    (hstep : rt.step l = some rt') : rt'.Recorded := by
  have hmove := step_move hstep
  exact ⟨h.rooted.move h.shares hmove, h.filed.move h.rooted h.shares h.distinct hok hmove,
    hmove.shares h.shares, hmove.distinct h.distinct⟩

end Runtime

/-- What a job of the runtime has on file. -/
theorem filed_of_recorded {rt : Runtime} (h : rt.Recorded) {store : Store}
    (hstore : rt.store = some store) {e : Entry} (he : e ∈ rt.jobs) : ∃ stored,
      (∀ limit, limit < 2 ^ 64 → stored.length ≤ limit →
        store.listEvents e.cfg.id limit = .ok stored) ∧
      FiledOf stored (persisted e.sys.log) ∧
      (e.sys.AtRest e.cfg ∨ e.sys.outcomeRx.value.isSome →
        FiledAll stored (persisted e.sys.log)) := by
  obtain ⟨stored, hrows, hfiled⟩ := h.filed store hstore e he
  obtain ⟨-, before, -, hreach⟩ := h.shares e he
  have hown := hfiled.withStore before
  refine ⟨stored, fun limit hword hlimit => listEvents_of_rows hrows hword hlimit,
    (hown.filedOf hreach :), ?_⟩
  rintro (hrest | hanswered)
  · exact (hown.complete hreach hrest :)
  · exact (hown.complete hreach (hreach.rests_of_answered hanswered) :)

section Histories

variable {config : RuntimeConfig} {maxConcurrent : ℕ} {history : Option Store}
  {start rt : Runtime} {ls : List RuntimeLabel}

theorem Runtime.rooted_of_build (hbuild : Runtime.build config maxConcurrent history = .ok start)
    (hrooted : ∀ store ∈ history, store.Rooted) : start.Rooted := by
  intro store hstore
  rw [Runtime.build_jobs hbuild]
  refine ⟨?_, fun e he => absurd he List.not_mem_nil⟩
  cases history with
  | none =>
      cases hbuild
      cases hstore
  | some found =>
      rw [(Runtime.build_ok hbuild).1] at hstore
      cases hstore
      exact (hrooted found rfl).resurrect

theorem Runtime.rooted_of_run (hbuild : Runtime.build config maxConcurrent history = .ok start)
    (hrooted : ∀ store ∈ history, store.Rooted)
    (hrun : Transition.run Runtime.step start ls = some rt) : rt.Rooted := by
  refine Transition.run_induction_reached (P := fun _ _ => True) (fun _ rt => rt.Rooted)
    (Runtime.rooted_of_build hbuild hrooted) ?_
    (Transition.stepsMeet_of_forall (fun _ _ => trivial) _ _) hrun
  intro done m l t hm hI _ hstep
  have hshares := Runtime.shares_of_run (Runtime.shares_of_none (Runtime.build_jobs hbuild)) hm
  exact hI.move hshares (Runtime.step_move hstep)

theorem Runtime.recorded_of_build
    (hbuild : Runtime.build config maxConcurrent history = .ok start)
    (hrooted : ∀ store ∈ history, store.Rooted) : start.Recorded := by
  have hstart := Runtime.build_jobs hbuild
  obtain ⟨-, hshares, hdistinct⟩ := Runtime.keeps_of_run hstart
    (Runtime.settled_of_build hbuild) (rfl : Transition.run Runtime.step start [] = some start)
  refine ⟨Runtime.rooted_of_build hbuild hrooted, fun store _ e he => ?_, hshares, hdistinct⟩
  rw [hstart] at he
  exact absurd he List.not_mem_nil

theorem Runtime.recorded_of_run
    (hbuild : Runtime.build config maxConcurrent history = .ok start)
    (hrooted : ∀ store ∈ history, store.Rooted)
    (hok : Transition.StepsMeet Runtime.step Runtime.InsertsSucceed start ls)
    (hrun : Transition.run Runtime.step start ls = some rt) : rt.Recorded :=
  Transition.invariant_of_run (I := Runtime.Recorded) (fun _ _ _ h hok hstep => h.step hok hstep)
    (Runtime.recorded_of_build hbuild hrooted) hok hrun

/-- The tables of a history that was rooted stay so, whichever statements fail: every row
of an event or a finding belongs to a row of the jobs table. -/
theorem tables_stay_rooted (hbuild : Runtime.build config maxConcurrent history = .ok start)
    (hrooted : ∀ store ∈ history, store.Rooted)
    (hrun : Transition.run Runtime.step start ls = some rt) :
    ∀ store ∈ rt.store, store.Rooted ∧ ∀ e ∈ rt.jobs, (store.row e.cfg.id).isSome :=
  Runtime.rooted_of_run hbuild hrooted hrun

/-- On a history whose tables are rooted, in a run whose inserts are `Ok`, `list_events` with a
limit that is not below what the job has on file returns for each job the events it has
broadcast, `OutputAppended` left out: those of its driver in their order, and `Cancelled`
if it was filed. Nothing is missing when neither task of the job has an event to insert, and
this is so when its handle was answered. -/
theorem histories_complete (hbuild : Runtime.build config maxConcurrent history = .ok start)
    (hrooted : ∀ store ∈ history, store.Rooted)
    (hok : Transition.StepsMeet Runtime.step Runtime.InsertsSucceed start ls)
    (hrun : Transition.run Runtime.step start ls = some rt) :
    ∀ store ∈ rt.store, ∀ e ∈ rt.jobs, ∃ stored,
      (∀ limit, limit < 2 ^ 64 → stored.length ≤ limit →
        store.listEvents e.cfg.id limit = .ok stored) ∧
      FiledOf stored (persisted e.sys.log) ∧
      (e.sys.AtRest e.cfg ∨ e.sys.outcomeRx.value.isSome →
        FiledAll stored (persisted e.sys.log) ∧ stored.Perm (persisted e.sys.log)) := by
  intro store hstore e he
  obtain ⟨stored, hlist, hsome, hall⟩ :=
    filed_of_recorded (Runtime.recorded_of_run hbuild hrooted hok hrun) hstore he
  exact ⟨stored, hlist, hsome, fun h => ⟨hall h, (hall h).perm⟩⟩

end Histories

theorem storedRuntime_rooted : ∀ store ∈ some ({} : Store), store.Rooted := by
  rintro _ ⟨⟩
  exact ⟨fun row hrow => absurd hrow List.not_mem_nil,
    fun row hrow => absurd hrow List.not_mem_nil⟩

/-- One job is over and the other runs. -/
theorem serialStored_runs : (Transition.run Runtime.step storedRuntime
    (spawnTwo ++ serialRest)).isSome = true := by
  decide

def serialStored : Runtime := Transition.endOf _ _ (spawnTwo ++ serialRest) serialStored_runs

theorem tables_stay_rooted_serial : ∃ store, serialStored.store = some store ∧
    store.events.length = 6 ∧ ∀ row ∈ store.events, (store.row row.jobId).isSome := by
  obtain ⟨store, hstore⟩ : ∃ store, serialStored.store = some store :=
    Option.isSome_iff_exists.mp (by decide)
  have hrooted := (tables_stay_rooted storedRuntime_built storedRuntime_rooted
    (Transition.run_endOf storedRuntime _ serialStored_runs) store hstore).1
  have hcount : serialStored.store.map (fun store => store.events.length) = some 6 := by decide
  rw [hstore, Option.map_some] at hcount
  exact ⟨store, hstore, Option.some.inj hcount, hrooted.events⟩

theorem histories_complete_serial : ∃ store, serialStored.store = some store ∧
    ∃ e ∈ serialStored.jobs, (persisted e.sys.log).length = 4 ∧ ∃ stored,
      store.listEvents e.cfg.id 4 = .ok stored ∧ stored.Perm (persisted e.sys.log) := by
  obtain ⟨store, hstore⟩ : ∃ store, serialStored.store = some store :=
    Option.isSome_iff_exists.mp (by decide)
  obtain ⟨e, he, hanswered, hlength⟩ : ∃ e ∈ serialStored.jobs,
      e.sys.outcomeRx.value.isSome = true ∧ (persisted e.sys.log).length = 4 := by decide
  obtain ⟨stored, hlist, -, hcomplete⟩ := histories_complete storedRuntime_built
    storedRuntime_rooted (by decide) (Transition.run_endOf storedRuntime _ serialStored_runs)
    store hstore e he
  have hperm := (hcomplete (Or.inr hanswered)).2
  exact ⟨store, hstore, e, he, hlength, stored,
    hlist 4 (by decide) (hperm.length_eq.trans hlength).le, hperm⟩

end Execra
