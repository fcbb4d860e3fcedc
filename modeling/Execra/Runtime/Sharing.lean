import Execra.Runtime.Recovery

/-!
A history that two processes have open. Recovery takes every row that is not
finalized for one that nobody drives, so opening the history finalizes the rows
of the jobs that another process is driving at that moment, and the next upsert
of such a job moves its row back. Seen from its owner a job is a snapshot that
advances and is saved now and then; as long as nobody opens the history while a
snapshot is open, the row of a job is a copy of an earlier snapshot of it.
-/

namespace Execra

/-- How far the state of a row has come. -/
def JobRow.stage (row : JobRow) : Nat :=
  match row.state with
  | "queued" => 0
  | "running" => 1
  | "exited" => 2
  | _ => 3

theorem JobRow.stage_of_state {row : JobRow} {state : JobState} (h : row.state = state.toText)
    (hwritten : state ≠ .cancelled) : row.stage = state.rank := by
  unfold JobRow.stage
  rw [h]
  cases state <;> first | rfl | exact absurd rfl hwritten

theorem JobRow.stage_le (row : JobRow) : row.stage ≤ 3 := by
  unfold JobRow.stage
  split <;> decide

/-- Every row is still there, and its state has not moved back. -/
def Store.Forward (store store' : Store) : Prop :=
  ∀ id row, store.row id = some row →
    ∃ row', store'.row id = some row' ∧ row.stage ≤ row'.stage

theorem Store.Forward.refl (store : Store) : store.Forward store :=
  fun _ row h => ⟨row, h, le_rfl⟩

theorem Store.Forward.trans {a b c : Store} (hab : a.Forward b) (hbc : b.Forward c) :
    a.Forward c := by
  intro id row h
  obtain ⟨row', h', hle⟩ := hab id row h
  obtain ⟨row'', h'', hle'⟩ := hbc id row' h'
  exact ⟨row'', h'', hle.trans hle'⟩

theorem Store.forward_resurrect (store : Store) :
    store.Forward store.resurrectStrandedJobs.1 := by
  intro id row h
  refine ⟨row.resurrect, by rw [Store.row_resurrect, h]; rfl, ?_⟩
  unfold JobRow.resurrect
  split
  · exact row.stage_le
  · exact le_rfl

/-! The owner's view. -/

/-- The jobs a process drives, as it knows them, and the history it saves them
in. -/
structure Ownership where
  live : List Job
  store : Store

/-- What can happen to an owned history; the flag says that it was opened by
somebody else. -/
inductive Ownership.Move (o : Ownership) : Bool → Ownership → Prop where
  | rest (store') (hrows : store'.jobs = o.store.jobs) : Move o false { o with store := store' }
  | advance (i j j' store') (hj : o.live[i]? = some j) (hid : j'.id = j.id)
      (hadvances : j.Advances j') (hconsistent : j'.Consistent)
      (hrows : store'.jobs = o.store.jobs) :
      Move o false { live := o.live.set i j', store := store' }
  | save (j) (hj : j ∈ o.live) : Move o false { o with store := o.store.upsertJob j }
  | add (j) (hrow : o.store.row j.id = none) (hnew : ∀ k ∈ o.live, k.id ≠ j.id)
      (hconsistent : j.Consistent) :
      Move o false { live := o.live ++ [j], store := o.store.upsertJob j }
  | opened : Move o true { o with store := o.store.resurrectStrandedJobs.1 }

namespace Ownership

/-- Each job has an id of its own and a row. -/
structure Filed (o : Ownership) : Prop where
  ids : (o.live.map Job.id).Nodup
  consistent : ∀ j ∈ o.live, j.Consistent
  row : ∀ j ∈ o.live, ∃ row, o.store.row j.id = some row ∧
    (row.stranded = true ∨ row.state = "finalized")

/-- A row is no further than its job, and carries no outcome before the job
has one. -/
def Tidy (o : Ownership) : Prop :=
  ∀ j ∈ o.live, ∀ row, o.store.row j.id = some row →
    row.stage ≤ j.state.rank ∧ (j.state ≠ .finalized → row.outcomeJson = none)

/-- The row of every job that is not finalized is not finalized either and
carries no outcome. -/
def Undisturbed (o : Ownership) : Prop :=
  ∀ j ∈ o.live, j.state ≠ .finalized →
    ∃ row, o.store.row j.id = some row ∧ row.state ≠ "finalized" ∧ row.outcomeJson = none

variable {o o' : Ownership} {opened : Bool}

theorem row_of_jobs {store store' : Store} (h : store'.jobs = store.jobs) (id : JobId) :
    store'.row id = store.row id := by
  unfold Store.row
  rw [h]

theorem Tidy.undisturbed (hfiled : o.Filed) (h : o.Tidy) : o.Undisturbed := by
  intro j hj hopen
  obtain ⟨row, hrow, hstage⟩ := hfiled.row j hj
  obtain ⟨hle, hnone⟩ := h j hj row hrow
  refine ⟨row, hrow, fun hfinalized => ?_, hnone hopen⟩
  have hlast : row.stage = 3 := by
    unfold JobRow.stage
    rw [hfinalized]
    rfl
  have hwritten := (hfiled.consistent j hj).written
  rw [hlast] at hle
  cases hstate : j.state <;> simp_all [JobState.rank]

theorem set_of_getElem? {α : Type} {l : List α} {i : Nat} {a : α} (h : l[i]? = some a) :
    l.set i a = l := by
  obtain ⟨hlen, rfl⟩ := List.getElem?_eq_some_iff.mp h
  exact List.set_getElem_self hlen

/-- A saved snapshot has a row that says what it says. -/
theorem row_saved (store : Store) (j : Job) : ∃ row, (store.upsertJob j).row j.id = some row ∧
    row.state = j.state.toText ∧ row.outcomeJson = j.outcome.map Json.mk :=
  ⟨_, store.row_upsertJob j, JobRow.upserted_state _ j, JobRow.upserted_outcomeJson _ j⟩

/-- A row after a snapshot was saved: that of the snapshot, or one of before. -/
theorem row_of_saved {store : Store} {j : Job} {id : JobId} {row : JobRow}
    (h : (store.upsertJob j).row id = some row) :
    (id = j.id ∧ row.state = j.state.toText ∧ row.outcomeJson = j.outcome.map Json.mk) ∨
      (id ≠ j.id ∧ store.row id = some row) := by
  by_cases hid : id = j.id
  · subst hid
    obtain ⟨saved, hsaved, hstate, houtcome⟩ := row_saved store j
    cases h.symm.trans hsaved
    exact Or.inl ⟨rfl, hstate, houtcome⟩
  · rw [store.row_upsertJob_of_ne (Ne.symm hid)] at h
    exact Or.inr ⟨hid, h⟩

/-- Saving a job leaves a row for each. -/
theorem Filed.saved (h : o.Filed) {j k : Job} (hj : j.Consistent)
    (hk : k.id ≠ j.id → k ∈ o.live) : ∃ row, (o.store.upsertJob j).row k.id = some row ∧
      (row.stranded = true ∨ row.state = "finalized") := by
  by_cases hid : k.id = j.id
  · obtain ⟨row, hfound, hstate, -⟩ := row_saved o.store j
    exact ⟨row, hid ▸ hfound, JobRow.stage_of_job hj hstate⟩
  · rw [o.store.row_upsertJob_of_ne (Ne.symm hid)]
    exact h.row k (hk hid)

theorem Filed.move (h : o.Filed) (hmove : o.Move opened o') : o'.Filed := by
  have hsaved := @h.saved
  obtain ⟨hids, hconsistent, hrow⟩ := h
  cases hmove with
  | rest store' hrows =>
      exact ⟨hids, hconsistent, fun j hj => by rw [row_of_jobs hrows]; exact hrow j hj⟩
  | advance i j j' store' hj hid hadvances hj' hrows =>
      have hmem := List.mem_of_getElem? hj
      refine ⟨?_, fun k hk => ?_, fun k hk => ?_⟩
      · have hmap : (o.live.map Job.id)[i]? = some j'.id := by rw [List.getElem?_map, hj, hid]; rfl
        rw [List.map_set, set_of_getElem? hmap]
        exact hids
      · rcases List.mem_or_eq_of_mem_set hk with hk | rfl
        · exact hconsistent k hk
        · exact hj'
      · rw [row_of_jobs hrows]
        rcases List.mem_or_eq_of_mem_set hk with hk | rfl
        · exact hrow k hk
        · rw [hid]
          exact hrow j hmem
  | save j hj =>
      exact ⟨hids, hconsistent, fun k hk => hsaved (hconsistent j hj) (fun _ => hk)⟩
  | add j hnone hnew hj =>
      refine ⟨?_, fun k hk => ?_, fun k hk => hsaved hj (fun hid => ?_)⟩
      · rw [List.map_append, List.nodup_append]
        refine ⟨hids, List.nodup_singleton _, fun id hid id' hid' heq => ?_⟩
        obtain ⟨k, hk, rfl⟩ := List.mem_map.mp hid
        exact hnew k hk (heq.trans (List.mem_singleton.mp hid'))
      · rcases List.mem_append.mp hk with hk | hk
        · exact hconsistent k hk
        · exact List.mem_singleton.mp hk ▸ hj
      · rcases List.mem_append.mp hk with hk | hk
        · exact hk
        · exact absurd (congrArg Job.id (List.mem_singleton.mp hk)) hid
  | opened =>
      refine ⟨hids, hconsistent, fun j hj => ?_⟩
      obtain ⟨row, hfound, hstage⟩ := hrow j hj
      refine ⟨row.resurrect, by rw [Store.row_resurrect, hfound]; rfl, ?_⟩
      unfold JobRow.resurrect
      split
      · exact Or.inr rfl
      · exact hstage

/-- A row that is no further than a job, as those of a tidy history are. -/
def Behind (row : JobRow) (j : Job) : Prop :=
  row.stage ≤ j.state.rank ∧ (j.state ≠ .finalized → row.outcomeJson = none)

theorem Behind.saved {j : Job} (hj : j.Consistent) {row : JobRow}
    (hstate : row.state = j.state.toText) (houtcome : row.outcomeJson = j.outcome.map Json.mk) :
    Behind row j := by
  refine ⟨(JobRow.stage_of_state hstate hj.written).le, fun hopen => ?_⟩
  rw [houtcome, Option.map_eq_none_iff, ← Option.not_isSome_iff_eq_none]
  exact fun hsome => hopen (hj.outcome.mp hsome)

theorem Behind.advances {row : JobRow} {j j' : Job} (h : Behind row j)
    (hadvances : j.Advances j') : Behind row j' := by
  refine ⟨h.1.trans hadvances.forward, fun hopen => h.2 (fun hfinal => ?_)⟩
  rw [hadvances.final hfinal] at hopen
  exact hopen hfinal

/-- A move keeps the rows behind their jobs, unless somebody opens the history
while a job is not finalized. -/
theorem Tidy.move (hfiled : o.Filed) (h : o.Tidy) (hmove : o.Move opened o')
    (hrest : opened = true → ∀ j ∈ o.live, j.state = .finalized) : o'.Tidy := by
  cases hmove with
  | rest store' hrows =>
      intro j hj row hfound
      rw [row_of_jobs hrows] at hfound
      exact h j hj row hfound
  | advance i j j' store' hj hid hadvances hj' hrows =>
      intro k hk row hfound
      rw [row_of_jobs hrows] at hfound
      rcases List.mem_or_eq_of_mem_set hk with hk | rfl
      · exact h k hk row hfound
      · exact Behind.advances (h j (List.mem_of_getElem? hj) row (hid ▸ hfound)) hadvances
  | save j hj =>
      intro k hk row hfound
      rcases row_of_saved hfound with ⟨hid, hstate, houtcome⟩ | ⟨-, hfound⟩
      · have hsame : k = j := List.inj_on_of_nodup_map hfiled.ids hk hj hid
        subst hsame
        exact Behind.saved (hfiled.consistent k hj) hstate houtcome
      · exact h k hk row hfound
  | add j hnone hnew hj =>
      intro k hk row hfound
      rcases row_of_saved hfound with ⟨hid, hstate, houtcome⟩ | ⟨hid, hfound⟩
      · rcases List.mem_append.mp hk with hk | hk
        · exact absurd hid (hnew k hk)
        · rw [List.mem_singleton.mp hk]
          exact Behind.saved hj hstate houtcome
      · rcases List.mem_append.mp hk with hk | hk
        · exact h k hk row hfound
        · exact absurd (congrArg Job.id (List.mem_singleton.mp hk)) hid
  | opened =>
      intro j hj row hfound
      have hfinal := hrest rfl j hj
      refine ⟨?_, fun hopen => absurd hfinal hopen⟩
      rw [hfinal]
      exact row.stage_le

/-- The state of a row moves back in no move from a tidy history. -/
theorem Tidy.forward (hfiled : o.Filed) (h : o.Tidy) (hmove : o.Move opened o') :
    o.store.Forward o'.store := by
  cases hmove with
  | rest store' hrows | advance i j j' store' hj hid hadvances hj' hrows =>
      intro id row hfound
      exact ⟨row, by rw [row_of_jobs hrows]; exact hfound, le_rfl⟩
  | save j hj =>
      intro id row hfound
      by_cases hid : id = j.id
      · subst hid
        obtain ⟨saved, hsaved, hstate, -⟩ := row_saved o.store j
        refine ⟨saved, hsaved, ?_⟩
        rw [JobRow.stage_of_state hstate (hfiled.consistent j hj).written]
        exact (h j hj row hfound).1
      · exact ⟨row, by rw [o.store.row_upsertJob_of_ne (Ne.symm hid)]; exact hfound, le_rfl⟩
  | add j hnone hnew hj =>
      intro id row hfound
      have hid : j.id ≠ id := by
        rintro rfl
        rw [hnone] at hfound
        cases hfound
      exact ⟨row, by rw [o.store.row_upsertJob_of_ne hid]; exact hfound, le_rfl⟩
  | opened => exact o.store.forward_resurrect

/-- Whoever opens the history while a job is not finalized disturbs it. -/
theorem disturbed_of_opened (hfiled : o.Filed) (hmove : o.Move true o')
    {j : Job} (hj : j ∈ o.live) (hopen : j.state ≠ .finalized) : ¬ o'.Undisturbed := by
  cases hmove with
  | opened =>
      intro hundisturbed
      obtain ⟨row, hfound, hstage⟩ := hfiled.row j hj
      obtain ⟨row', hfound', hstate, -⟩ := hundisturbed j hj hopen
      rw [Store.row_resurrect, hfound] at hfound'
      cases hfound'
      rcases hstage with hstranded | hfinalized
      · exact hstate (by rw [JobRow.resurrect, if_pos hstranded])
      · refine hstate ?_
        unfold JobRow.resurrect
        split
        · rfl
        · exact hfinalized

end Ownership

/-! The owning runtime. -/

/-- What a runtime owns. -/
def Runtime.owned (rt : Runtime) (store : Store) : Ownership where
  live := rt.jobs.map (fun e => e.sys.snapshot)
  store

def RuntimeLabel.opens : RuntimeLabel → Bool
  | .openHistory => true
  | _ => false

theorem Entry.Runs.snapshot_id {e : Entry} (h : e.Runs) : e.sys.snapshot.id = e.cfg.id := by
  obtain ⟨store, -, hs⟩ := h
  exact hs.snapshot_id

theorem Entry.Runs.advances {e : Entry} (h : e.Runs) {store : Option Store} {s : Sys} {l : Label}
    (hstore : store.isSome = e.cfg.store.isSome)
    (hstep : (e.sys.withStore store).step e.cfg l = some s) :
    e.sys.snapshot.Advances s.snapshot := by
  obtain ⟨own, hown, hs⟩ := h
  obtain ⟨-, store', -, hsame⟩ := Sys.step_store (hown.trans hstore.symm) hstep
  have hmove : (e.sys.withStore own).Move e.cfg (s.withStore store') := Sys.step_move hsame
  have hadvances : (e.sys.withStore own).job.Advances (s.withStore store').job :=
    hmove.advances hs
  exact hadvances

/-- A step of one of its jobs is a move of what a runtime owns. -/
theorem Runtime.owned_job {rt : Runtime} (hshares : rt.Shares) {store store' : Store}
    (hstore : rt.store = some store) {i : Nat} {e : Entry} {own : Label} {s : Sys}
    (permit : Permit) (he : rt.jobs[i]? = some e)
    (hstep : (e.sys.withStore rt.store).step e.cfg own = some s) (hs : s.store = some store') :
    (rt.owned store).Move false
      { live := (rt.jobs.set i { e with sys := s, permit }).map (fun e => e.sys.snapshot)
        store := store' } := by
  have hruns := hshares e (List.mem_of_getElem? he)
  have hafter := hruns.2.step hruns.1 hstep permit
  have hlive : (rt.owned store).live[i]? = some e.sys.snapshot := by
    simp [Runtime.owned, he]
  rw [List.map_set]
  cases Sys.step_upserts hstep with
  | kept hkept =>
      have hrows : store'.jobs = store.jobs := by simpa [hs, hstore] using hkept
      exact .advance i e.sys.snapshot s.snapshot store' hlive
        (hafter.snapshot_id.trans hruns.2.snapshot_id.symm) (hruns.2.advances hruns.1 hstep)
        hafter.consistent hrows
  | upsert found hfound hnew hsnapshot =>
      have hsame : store' = store.upsertJob e.sys.snapshot := by
        cases hstore.symm.trans hfound
        exact Option.some.inj (hs.symm.trans hnew)
      have hset : (rt.owned store).live.set i s.snapshot = (rt.owned store).live :=
        Ownership.set_of_getElem? (hlive.trans (congrArg some hsnapshot.symm))
      rw [hsame]
      change (rt.owned store).Move false ⟨(rt.owned store).live.set i s.snapshot, _⟩
      rw [hset]
      exact .save _ (List.mem_of_getElem? hlive)

/-- So is every step of the runtime. -/
theorem Runtime.Move.owned {rt rt' : Runtime} {l : RuntimeLabel} (h : rt.Move l rt')
    (hshares : rt.Shares) {store store' : Store} (hstore : rt.store = some store)
    (hstore' : rt'.store = some store') : (rt.owned store).Move l.opens (rt'.owned store') := by
  cases h with
  | refuse =>
      cases hstore.symm.trans hstore'
      exact .rest store rfl
  | spawn cfg upsertOk hfresh =>
      simp only [Runtime.knows, hstore, Option.any_some, Bool.or_eq_false_iff] at hfresh
      have hsaved : store' = store.upsertJob cfg.initialJob := by
        simp only [Runtime.accept, Sys.init, hstore, Option.map_some] at hstore'
        exact (Option.some.inj hstore').symm
      have hlive : (rt.jobs ++ [rt.accept cfg]).map (fun e => e.sys.snapshot) =
          (rt.owned store).live ++ [cfg.initialJob] := by
        rw [List.map_append]
        rfl
      have hnew : ∀ k ∈ (rt.owned store).live, k.id ≠ cfg.id := by
        intro k hk hid
        obtain ⟨e, he, rfl⟩ := List.mem_map.mp hk
        have hother := List.any_eq_false.mp hfresh.1.1 e he
        rw [(hshares e he).2.snapshot_id] at hid
        exact hother (by simpa using hid)
      change (rt.owned store).Move false
        ⟨(rt.jobs ++ [rt.accept cfg]).map (fun e => e.sys.snapshot), store'⟩
      rw [hlive, hsaved]
      have hnone : store.row cfg.id = none := by simpa using hfresh.2
      exact .add cfg.initialJob hnone hnew cfg.initialJob_consistent
  | acquire i e w s he hctl hfree hstep =>
      exact Runtime.owned_job hshares hstore .held he hstep hstore'
  | job i e l s he hctl hstep =>
      exact Runtime.owned_job hshares hstore e.permit he hstep hstore'
  | release i e he hctl hheld =>
      cases hstore.symm.trans hstore'
      have hlive : (rt.owned store).live[i]? = some e.sys.snapshot := by simp [Runtime.owned, he]
      have hset : (rt.jobs.set i { e with permit := .released }).map (fun e => e.sys.snapshot) =
          (rt.owned store).live := by
        rw [List.map_set]
        exact Ownership.set_of_getElem? hlive
      change (rt.owned store).Move false
        ⟨(rt.jobs.set i { e with permit := .released }).map (fun e => e.sys.snapshot), store⟩
      rw [hset]
      exact .rest store rfl
  | openHistory found hfound =>
      cases hstore.symm.trans hfound
      cases hstore'
      exact .opened

/-- The history is opened by another process only while every job of this one is
finalized. -/
def Runtime.OpensAtRest (rt : Runtime) (l : RuntimeLabel) : Prop :=
  l.opens = true → ∀ e ∈ rt.jobs, e.sys.snapshot.state = .finalized

instance (rt : Runtime) (l : RuntimeLabel) : Decidable (rt.OpensAtRest l) :=
  inferInstanceAs (Decidable (l.opens = true → ∀ e ∈ rt.jobs, e.sys.snapshot.state = .finalized))

/-- The stored rows leave the live jobs of the runtime undisturbed. -/
def Runtime.Undisturbed (rt : Runtime) : Prop :=
  ∀ store, rt.store = some store → (rt.owned store).Undisturbed

/-- No stored state has moved back. -/
def Runtime.Forward (rt rt' : Runtime) : Prop :=
  ∀ store store', rt.store = some store → rt'.store = some store' → store.Forward store'

section Run

variable {start rt rt' : Runtime} {ls : List RuntimeLabel}

theorem Runtime.Move.had_store {l : RuntimeLabel} (h : rt.Move l rt') {store' : Store}
    (hstore' : rt'.store = some store') : ∃ store, rt.store = some store := by
  refine Option.isSome_iff_exists.mp ?_
  rw [← h.store_isSome, hstore']
  rfl

theorem Runtime.filed_of_run (hstart : start.jobs = [])
    (hrun : Transition.run Runtime.step start ls = some rt) :
    rt.Shares ∧ ∀ store, rt.store = some store → (rt.owned store).Filed := by
  refine Transition.invariant_of_run (P := fun _ _ => True)
    (I := fun rt => rt.Shares ∧ ∀ store, rt.store = some store → (rt.owned store).Filed)
    ?_ ⟨Runtime.shares_of_none hstart, ?_⟩
    (Transition.stepsMeet_of_forall (fun _ _ => trivial) _ _) hrun
  · rintro rt l rt' ⟨hshares, hfiled⟩ - hstep
    have hmove := Runtime.step_move hstep
    refine ⟨hmove.shares hshares, fun store' hstore' => ?_⟩
    obtain ⟨store, hstore⟩ := hmove.had_store hstore'
    exact (hfiled store hstore).move (hmove.owned hshares hstore hstore')
  · intro store _
    have hlive : (start.owned store).live = [] := by simp [Runtime.owned, hstart]
    exact ⟨by simp [hlive], by simp [hlive], by simp [hlive]⟩

/-- What a run in which the history is opened at rest keeps, from any state
of a run. -/
theorem Runtime.tidy_of_run (hshares : rt.Shares)
    (hfiled : ∀ store, rt.store = some store → (rt.owned store).Filed)
    (htidy : ∀ store, rt.store = some store → (rt.owned store).Tidy)
    (hmeet : Transition.StepsMeet Runtime.step Runtime.OpensAtRest rt ls)
    (hrun : Transition.run Runtime.step rt ls = some rt') :
    rt'.Shares ∧ ∀ store', rt'.store = some store' →
      (rt'.owned store').Filed ∧ (rt'.owned store').Tidy ∧
        ∀ store, rt.store = some store → store.Forward store' := by
  refine Transition.invariant_of_run (P := Runtime.OpensAtRest)
    (I := fun rt' => rt'.Shares ∧ ∀ store', rt'.store = some store' →
      (rt'.owned store').Filed ∧ (rt'.owned store').Tidy ∧
        ∀ store, rt.store = some store → store.Forward store') ?_ ⟨hshares, ?_⟩ hmeet hrun
  · rintro m l m' ⟨hm, hI⟩ hrest hstep
    have hmove := Runtime.step_move hstep
    refine ⟨hmove.shares hm, fun store' hstore' => ?_⟩
    obtain ⟨found, hfound⟩ := hmove.had_store hstore'
    obtain ⟨hfiled, htidy, hforward⟩ := hI found hfound
    have howned := hmove.owned hm hfound hstore'
    refine ⟨hfiled.move howned, htidy.move hfiled howned (fun hopens j hj => ?_),
      fun store hstore => (hforward store hstore).trans (htidy.forward hfiled howned)⟩
    obtain ⟨e, he, rfl⟩ := List.mem_map.mp hj
    exact hrest hopens e he
  · intro store hstore
    refine ⟨hfiled store hstore, htidy store hstore, fun store' hstore' => ?_⟩
    cases hstore.symm.trans hstore'
    exact .refl store

/-- In a run of the owning runtime its live jobs are undisturbed in every state
and no stored state ever moves back, exactly if the history is opened by others
only while all jobs of the runtime are finalized. -/
theorem history_undisturbed_iff {config : RuntimeConfig} {maxConcurrent : Nat}
    {history : Option Store} {persisted : List Job}
    (hrun : Transition.run Runtime.step
      (Runtime.fromParts config maxConcurrent history persisted) ls = some rt) :
    Transition.StepsMeet Runtime.step Runtime.OpensAtRest
        (Runtime.fromParts config maxConcurrent history persisted) ls ↔
      ∀ done more rest m m', ls = done ++ more ++ rest →
        Transition.run Runtime.step
          (Runtime.fromParts config maxConcurrent history persisted) done = some m →
        Transition.run Runtime.step m more = some m' → m'.Undisturbed ∧ m.Forward m' := by
  generalize hfresh : Runtime.fromParts config maxConcurrent history persisted = start at hrun
  have hstart : start.jobs = [] := by
    rw [← hfresh]
    rfl
  constructor
  · intro hmeet done more rest m m' hsplit hdone hmore
    subst hsplit
    have hboth : Transition.run Runtime.step start (done ++ more) = some m' := by
      rw [Transition.run_append, hdone]
      exact hmore
    obtain ⟨hfirst, hsecond⟩ := (hmeet.append hboth).1.append hdone
    have hempty : ∀ store, start.store = some store → (start.owned store).Tidy := by
      intro store _ j hj
      rw [Runtime.owned, hstart] at hj
      cases hj
    obtain ⟨hshares, hm⟩ := Runtime.tidy_of_run (Runtime.shares_of_none hstart)
      (Runtime.filed_of_run hstart (Transition.run_nil start)).2 hempty hfirst hdone
    obtain ⟨-, hm'⟩ := Runtime.tidy_of_run hshares (fun store hstore => (hm store hstore).1)
      (fun store hstore => (hm store hstore).2.1) hsecond hmore
    exact ⟨fun store' hstore' => (hm' store' hstore').2.1.undisturbed (hm' store' hstore').1,
      fun store store' hstore hstore' => (hm' store' hstore').2.2 store hstore⟩
  · intro hall
    refine Transition.stepsMeet_iff.mpr (fun done l rest m hsplit hdone hopens e he => ?_)
    by_contra hopen
    subst hsplit
    rw [Transition.run_append, hdone, Option.bind_some, Transition.run_cons,
      Option.bind_eq_some_iff] at hrun
    obtain ⟨m', hstep, -⟩ := hrun
    have hmove := Runtime.step_move hstep
    obtain ⟨hshares, hfiled⟩ := Runtime.filed_of_run hstart hdone
    obtain ⟨store, hstore⟩ : ∃ store, m.store = some store := by
      cases hmove with
      | openHistory found hfound => exact ⟨found, hfound⟩
      | _ => cases hopens
    obtain ⟨store', hstore'⟩ : ∃ store', m'.store = some store' :=
      Option.isSome_iff_exists.mp (by rw [hmove.store_isSome, hstore]; rfl)
    have howned := hmove.owned hshares hstore hstore'
    rw [hopens] at howned
    have hstepped : Transition.run Runtime.step m [l] = some m' := by
      rw [Transition.run_cons, hstep]
      rfl
    have hundisturbed := (hall done [l] rest m m' (by simp) hdone hstepped).1 store' hstore'
    exact Ownership.disturbed_of_opened (hfiled store hstore) howned
      (List.mem_map_of_mem he) hopen hundisturbed

end Run

/-- A job runs and ends, and the history is opened when it is over. -/
def openedAfterRun : List RuntimeLabel :=
  [.spawn plainConfig true] ++ onJob 0 (drive 12 ++ leaveQuietly ++ drive 18) ++ [.openHistory]

theorem openedAfter_runs :
    (Transition.run Runtime.step storedRuntime openedAfterRun).isSome = true := by
  decide

def openedAfterEnd : Runtime := Transition.endOf _ _ openedAfterRun openedAfter_runs

theorem history_undisturbed_afterwards :
    openedAfterEnd.Undisturbed ∧ storedRuntime.Forward openedAfterEnd := by
  have hrun := Transition.run_endOf storedRuntime openedAfterRun openedAfter_runs
  exact (history_undisturbed_iff hrun).mp (by decide) [] openedAfterRun [] storedRuntime
    openedAfterEnd (by simp) rfl hrun

/-- The history is opened while the job runs, and then the job ends. -/
def openedMeanwhileRun : List RuntimeLabel :=
  [.spawn plainConfig true] ++ onJob 0 (drive 12) ++ [.openHistory]

theorem openedMeanwhile_runs :
    (Transition.run Runtime.step storedRuntime openedMeanwhileRun).isSome = true := by
  decide

def openedMeanwhileEnd : Runtime :=
  Transition.endOf _ _ openedMeanwhileRun openedMeanwhile_runs

theorem savedAgain_runs : (Transition.run Runtime.step openedMeanwhileEnd
    (onJob 0 (leaveQuietly ++ drive 8))).isSome = true := by
  decide

def savedAgainEnd : Runtime := Transition.endOf _ _ _ savedAgain_runs

/-- The history while the job runs, and when its exit has been saved. -/
def openedStore : Store := openedMeanwhileEnd.store.get (by decide)

def savedAgainStore : Store := savedAgainEnd.store.get (by decide)

/-- The row of a running job is finalized, and moves back when the job exits. -/
theorem history_disturbed :
    Runtime.Reachable storedRuntime openedMeanwhileEnd ∧ ¬ openedMeanwhileEnd.Undisturbed ∧
    Runtime.Reachable openedMeanwhileEnd savedAgainEnd ∧
    ¬ openedMeanwhileEnd.Forward savedAgainEnd := by
  have hopened : (openedStore.row ⟨0⟩).map JobRow.state = some "finalized" := by decide
  have hsaved : (savedAgainStore.row ⟨0⟩).map JobRow.state = some "exited" := by decide
  have hlive : (openedMeanwhileEnd.owned openedStore).live.map (fun j => (j.id, j.state)) =
      [(⟨0⟩, .running)] := by decide
  refine ⟨Transition.reachable_endOf _ _ openedMeanwhile_runs, fun h => ?_,
    Transition.reachable_endOf _ _ savedAgain_runs, fun h => ?_⟩
  · obtain ⟨j, hj, hpair⟩ : ∃ j ∈ (openedMeanwhileEnd.owned openedStore).live,
        (j.id, j.state) = (⟨0⟩, JobState.running) := by
      refine List.mem_map.mp ?_
      rw [hlive]
      exact List.mem_singleton_self _
    obtain ⟨hid, hstate⟩ := Prod.mk.inj hpair
    obtain ⟨row, hrow, hopen, -⟩ :=
      h openedStore (Option.some_get _).symm j hj (by rw [hstate]; decide)
    have hrow' : openedStore.row ⟨0⟩ = some row := hid ▸ hrow
    rw [hrow'] at hopened
    exact hopen (Option.some.inj hopened)
  · obtain ⟨row, hrow, hfinalized⟩ := Option.map_eq_some_iff.mp hopened
    obtain ⟨row', hrow', hle⟩ :=
      h openedStore savedAgainStore (Option.some_get _).symm (Option.some_get _).symm ⟨0⟩ row hrow
    rw [hrow'] at hsaved
    have hexited : row'.state = "exited" := Option.some.inj hsaved
    rw [JobRow.stage, JobRow.stage, hfinalized, hexited] at hle
    exact absurd hle (by decide)

end Execra
