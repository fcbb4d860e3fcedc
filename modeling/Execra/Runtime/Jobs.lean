import Execra.Model.Runtime
import Execra.Job.Moves

/-!
The jobs of a runtime are jobs. What a job does depends on the store in nothing
but whether there is one, so a job that shares its store with others runs as it
would with a store of its own, and what holds of a job in every reachable state
holds of each job of a runtime.
-/

namespace Execra

/-! A job with another store. -/

theorem Sys.upsertSnapshot_none {s : Sys} (h : s.store = none) (w : Oracle) :
    s.upsertSnapshot w = s := by
  rw [Sys.upsertSnapshot, h]

theorem Sys.upsertSnapshot_some {s : Sys} {store : Store} (h : s.store = some store)
    (w : Oracle) : s.upsertSnapshot w =
      if w.upsertOk then { s with store := some (store.upsertJob s.snapshot) }
      else { s with upsertsOk := false } := by
  rw [Sys.upsertSnapshot, h]

theorem Sys.act_store (cfg : Config) (w : Oracle) (o : Op) (s : Sys) {store : Option Store}
    (h : store.isSome = s.store.isSome) :
    (s.act cfg w o).2.store.isSome = s.store.isSome ∧
      ∃ store', store'.isSome = s.store.isSome ∧
        (s.withStore store).act cfg w o =
          ((s.act cfg w o).1, (s.act cfg w o).2.withStore store') := by
  cases o with
  | insertEvent event =>
      exact ⟨by simp [Sys.act, Sys.insertEvent], ((s.withStore store).insertEvent event w).store,
        by simpa [Sys.insertEvent] using h, rfl⟩
  | upsertSnapshot =>
      simp only [Sys.act]
      cases hown : s.store with
      | none =>
          have hnone : (s.withStore store).store = none := by simpa [hown] using h
          rw [Sys.upsertSnapshot_none hown, Sys.upsertSnapshot_none hnone]
          exact ⟨by rw [hown], store, by rw [h, hown], rfl⟩
      | some found =>
          obtain ⟨other, hother⟩ : ∃ other, (s.withStore store).store = some other :=
            Option.isSome_iff_exists.mp (h.trans (by rw [hown]; rfl))
          rw [Sys.upsertSnapshot_some hown, Sys.upsertSnapshot_some hother]
          by_cases hok : w.upsertOk <;> simp only [hok, ↓reduceIte]
          · exact ⟨rfl, some (other.upsertJob s.snapshot), rfl, rfl⟩
          · exact ⟨by simp [hown], store, by rw [h, hown], rfl⟩
  | openRawFile =>
      simp only [Sys.act]
      by_cases hopens : w.rawOpens <;> simp only [hopens] <;> exact ⟨rfl, store, h, rfl⟩
  | spawnChild =>
      simp only [Sys.act]
      cases w.spawned <;> exact ⟨rfl, store, h, rfl⟩
  | writeRaw text =>
      simp only [Sys.act]
      by_cases hopen : s.rawOpen <;> simp only [hopen, Sys.withStore_rawOpen] <;>
        exact ⟨rfl, store, h, rfl⟩
  | _ => exact ⟨rfl, store, h, rfl⟩

section Poll

variable (cfg : Config) (v : LoopVars) (s : Sys) (store : Option Store)

private theorem pollExit_store : (s.pollExit cfg v).store = s.store ∧
    (s.withStore store).pollExit cfg v = (s.pollExit cfg v).withStore store := by
  unfold Sys.pollExit
  by_cases hexited : v.childExited
  · simp [hexited]
  · cases hrx : s.exitRx <;> simp [hexited, hrx, Sys.selectDone]
    rfl

private theorem pollStderr_store : (s.pollStderr cfg v).store = s.store ∧
    (s.withStore store).pollStderr cfg v = (s.pollStderr cfg v).withStore store := by
  unfold Sys.pollStderr
  by_cases hdone : v.stderrDone
  · simpa [hdone] using pollExit_store cfg v s store
  · simp only [hdone, Sys.withStore_stderr]
    cases s.stderr.nextLine with
    | mk r pipe =>
        cases r with
        | none => exact pollExit_store cfg v { s with stderr := pipe } store
        | some result => exact ⟨rfl, rfl⟩

private theorem pollStdout_store : (s.pollStdout cfg v).store = s.store ∧
    (s.withStore store).pollStdout cfg v = (s.pollStdout cfg v).withStore store := by
  unfold Sys.pollStdout
  by_cases hdone : v.stdoutDone
  · simpa [hdone] using pollStderr_store cfg v s store
  · simp only [hdone, Sys.withStore_stdout]
    cases s.stdout.nextLine with
    | mk r pipe =>
        cases r with
        | none => exact pollStderr_store cfg v { s with stdout := pipe } store
        | some result => exact ⟨rfl, rfl⟩

end Poll

/-- A step of a job, and the same step on another store. -/
structure Sys.StoreFree (cfg : Config) (s : Sys) (store : Option Store) (l : Label) (t : Sys) :
    Prop where
  kept : t.store.isSome = s.store.isSome
  same : ∃ store', store'.isSome = s.store.isSome ∧
    (s.withStore store).step cfg l = some (t.withStore store')

section Step

variable {cfg : Config} {s t : Sys} {store : Option Store}

private theorem driverStep_store (h : store.isSome = s.store.isSome) {w : Oracle}
    (hstep : s.step cfg (.driver w) = some t) : s.StoreFree cfg store (.driver w) t := by
  simp only [Sys.step, Sys.driverStep] at hstep
  cases hctl : s.ctl with
  | run p =>
      cases p with
      | ret next => rw [hctl] at hstep; cases hstep
      | op o k =>
          rw [hctl] at hstep
          cases hstep
          obtain ⟨hkept, store', hstore', hact⟩ := s.act_store cfg w o h
          refine ⟨hkept, store', hstore', ?_⟩
          simp only [Sys.step, Sys.driverStep, Sys.withStore_ctl, hctl, hact]
          rfl
  | top v =>
      simp only [hctl] at hstep
      split at hstep
      · next hended =>
          cases hstep
          refine ⟨rfl, store, h, ?_⟩
          simp only [Sys.step, Sys.driverStep, Sys.withStore_ctl, hctl, hended]
          rfl
      · next hended =>
          cases hstep
          obtain ⟨hkept, hpoll⟩ := pollStdout_store cfg v s store
          refine ⟨by rw [hkept], store, h, ?_⟩
          simp only [Sys.step, Sys.driverStep, Sys.withStore_ctl, hctl, hended, hpoll]
          rfl
  | returned => rw [hctl] at hstep; cases hstep

private theorem waitStep_store (h : store.isSome = s.store.isSome) {c : WaitChoice} {w : Oracle}
    (hstep : s.step cfg (.wait c w) = some t) : s.StoreFree cfg store (.wait c w) t := by
  simp only [Sys.step, Sys.waitStep] at hstep
  cases c with
  | go =>
      cases hpc : s.wait.pc <;> simp only [hpc] at hstep
      case cancelInsert time =>
        cases hstep
        refine ⟨by simp [Sys.insertEvent, Sys.waitAt],
          ((s.withStore store).insertEvent (cancelledEvent cfg time) w).store,
          by simpa [Sys.insertEvent] using h, ?_⟩
        simp only [Sys.step, Sys.waitStep, Sys.withStore_wait, hpc]
        rfl
      case reap branch =>
        obtain ⟨status, hready, rfl⟩ := Option.map_eq_some_iff.mp hstep
        refine ⟨rfl, store, h, ?_⟩
        simp only [Sys.step, Sys.waitStep, Sys.withStore_wait, Sys.withStore_group, hpc, hready]
        rfl
      all_goals
        cases hstep
        try
          refine ⟨rfl, store, h, ?_⟩
          simp only [Sys.step, Sys.waitStep, Sys.withStore_wait, hpc]
          rfl
  | child =>
      cases hpc : s.wait.pc <;> simp only [hpc] at hstep
      case select | grace =>
        obtain ⟨status, hready, rfl⟩ := Option.map_eq_some_iff.mp hstep
        refine ⟨rfl, store, h, ?_⟩
        simp only [Sys.step, Sys.waitStep, Sys.withStore_wait, Sys.withStore_group, hpc, hready]
        rfl
      all_goals cases hstep
  | cancel =>
      cases hpc : s.wait.pc <;> simp only [hpc] at hstep
      case select =>
        split at hstep
        · next hready =>
            cases hstep
            refine ⟨rfl, store, h, ?_⟩
            simp only [Sys.step, Sys.waitStep, Sys.withStore_wait, Sys.withStore_token, hpc, hready]
            rfl
        · cases hstep
      all_goals cases hstep
  | timer =>
      cases hpc : s.wait.pc <;> simp only [hpc] at hstep
      case select | grace =>
        split at hstep
        · next hready =>
            cases hstep
            refine ⟨rfl, store, h, ?_⟩
            simp only [Sys.step, Sys.waitStep, Sys.withStore_wait, Sys.withStore_instant, hpc,
              hready]
            rfl
        · cases hstep
      all_goals cases hstep

/-- Whether there is a store is all that a step of a job depends on. -/
theorem Sys.step_store (h : store.isSome = s.store.isSome) {l : Label}
    (hstep : s.step cfg l = some t) : s.StoreFree cfg store l t := by
  cases l with
  | driver w => exact driverStep_store h hstep
  | wait c w => exact waitStep_store h hstep
  | cancelCheck =>
      simp only [Sys.step] at hstep
      split at hstep
      all_goals
        next hstate =>
          cases hstep
          refine ⟨rfl, store, h, ?_⟩
          simp only [Sys.step, Sys.withStore_snapshot, hstate]
          rfl
  | cancelToken =>
      simp only [Sys.step] at hstep
      split at hstep
      · cases hstep
      · next hcallers =>
          cases hstep
          refine ⟨rfl, store, h, ?_⟩
          simp only [Sys.step, Sys.withStore_callers, hcallers]
          rfl
  | pollHandle =>
      cases hstep
      have hpoll : s.pollHandle.store = s.store ∧
          (s.withStore store).pollHandle = s.pollHandle.withStore store := by
        unfold Sys.pollHandle
        cases hyields : s.handleYields with
        | some outcome => simp [hyields]
        | none =>
            cases hrx : s.outcomeRx with
            | empty =>
                cases hctl : s.ctl with
                | returned => simp [hyields, hrx, hctl]; rfl
                | _ => simp [hyields, hrx, hctl]
            | sent outcome => simp [hyields, hrx]; rfl
            | taken outcome => simp [hyields, hrx]
      exact ⟨by rw [hpoll.1], store, h, congrArg some hpoll.2⟩
  | arrive stream _ | close stream _ =>
      simp only [Sys.step] at hstep
      split at hstep
      · cases hstep
      · next hopen =>
          cases hstep
          refine ⟨by cases stream <;> rfl, store, h, ?_⟩
          cases stream <;> exact if_neg hopen
  | exitLeader _ _ | failWait _ | exitDescendant _ _ | fork _ _ =>
      simp only [Sys.step] at hstep
      split at hstep
      · next hchild =>
          obtain ⟨group, hgroup, rfl⟩ := Option.map_eq_some_iff.mp hstep
          refine ⟨rfl, store, h, ?_⟩
          simp only [Sys.step, Sys.withStore_child, Sys.withStore_group, hchild, hgroup]
          rfl
      · cases hstep
  | elapse d =>
      cases hstep
      exact ⟨rfl, store, h, rfl⟩

end Step

/-! The moves of one job among others. -/

/-- What a step of a runtime does to one of its jobs. The label is that of the
job's own step, the store the one it finds. -/
inductive Entry.Move (e : Entry) : Option Label → Entry → Prop where
  | acquire (w store s) (hstore : store.isSome = e.cfg.store.isSome)
      (hctl : e.sys.ctl.acquires = true)
      (hstep : (e.sys.withStore store).step e.cfg (.driver w) = some s) :
      Move e (some (.driver w)) { e with sys := s, permit := .held }
  | step (l store s) (hstore : store.isSome = e.cfg.store.isSome)
      (hctl : l.isDriver = true → e.sys.ctl.acquires = false)
      (hstep : (e.sys.withStore store).step e.cfg l = some s) :
      Move e (some l) { e with sys := s }
  | release (hctl : e.sys.ctl = .returned) (hheld : e.permit = .held) :
      Move e none { e with permit := .released }

/-- The job has run as it would with a store of its own. -/
def Entry.Runs (e : Entry) : Prop :=
  ∃ store, store.isSome = e.cfg.store.isSome ∧ Sys.Reachable e.cfg (e.sys.withStore store)

theorem Entry.Runs.step {e : Entry} (h : e.Runs) {store : Option Store} {s : Sys} {l : Label}
    (hstore : store.isSome = e.cfg.store.isSome)
    (hstep : (e.sys.withStore store).step e.cfg l = some s) (permit : Permit) :
    Entry.Runs { e with sys := s, permit } := by
  obtain ⟨own, hown, hreach⟩ := h
  obtain ⟨-, store', hstore', hsame⟩ := Sys.step_store (hown.trans hstore.symm) hstep
  exact ⟨store', hstore'.trans hstore, Transition.Reachable.extend hreach hsame⟩

theorem Entry.Move.runs {e e' : Entry} {l : Option Label} (hmove : e.Move l e') (h : e.Runs) :
    e'.Runs := by
  cases hmove with
  | acquire w store s hstore _ hstep => exact h.step hstore hstep .held
  | step l store s hstore _ hstep => exact h.step hstore hstep e.permit
  | release => exact h

theorem Entry.Move.same_cfg {e e' : Entry} {l : Option Label} (hmove : e.Move l e') :
    e'.cfg = e.cfg := by
  cases hmove <;> rfl

/-- The transitions of a runtime. -/
inductive Runtime.Move (rt : Runtime) : RuntimeLabel → Runtime → Prop where
  | refuse (cfg upsertOk) : Move rt (.spawn cfg upsertOk) rt
  | spawn (cfg upsertOk) (hfresh : rt.knows cfg.id = false) :
      Move rt (.spawn cfg upsertOk)
        { rt with store := (rt.accept cfg).sys.store, jobs := rt.jobs ++ [rt.accept cfg] }
  | acquire (i e w s) (he : rt.jobs[i]? = some e) (hctl : e.sys.ctl.acquires = true)
      (hfree : 0 < rt.permits)
      (hstep : (e.sys.withStore rt.store).step e.cfg (.driver w) = some s) :
      Move rt (.job i (.driver w))
        { rt with
          permits := rt.permits - 1
          store := s.store
          jobs := rt.jobs.set i { e with sys := s, permit := .held } }
  | job (i e l s) (he : rt.jobs[i]? = some e)
      (hctl : l.isDriver = true → e.sys.ctl.acquires = false)
      (hstep : (e.sys.withStore rt.store).step e.cfg l = some s) :
      Move rt (.job i l) { rt with store := s.store, jobs := rt.jobs.set i { e with sys := s } }
  | release (i e) (he : rt.jobs[i]? = some e) (hctl : e.sys.ctl = .returned)
      (hheld : e.permit = .held) :
      Move rt (.release i)
        { rt with
          permits := rt.permits + 1
          jobs := rt.jobs.set i { e with permit := .released } }
  | openHistory (store) (hstore : rt.store = some store) :
      Move rt .openHistory { rt with store := some store.resurrectStrandedJobs.1 }

theorem Ctl.eq_returned {c : Ctl} (h : c.isReturned = true) : c = .returned := by
  cases c <;> first | rfl | cases h

theorem Label.eq_driver {l : Label} (h : l.isDriver = true) : ∃ w, l = .driver w := by
  cases l <;> first | exact ⟨_, rfl⟩ | cases h

theorem Runtime.step_move {rt rt' : Runtime} {l : RuntimeLabel} (h : rt.step l = some rt') :
    rt.Move l rt' := by
  cases l with
  | spawn cfg upsertOk =>
      simp only [step] at h
      split at h
      · cases h
      · next hfresh =>
          cases h
          unfold Runtime.spawn
          split
          · exact .refuse cfg upsertOk
          · exact .spawn cfg upsertOk (by simpa using hfresh)
  | job i l =>
      simp only [step] at h
      split at h
      · cases h
      · next e he =>
          split at h
          · next hacquires =>
              obtain ⟨hdriver, hctl⟩ := Bool.and_eq_true_iff.mp hacquires
              obtain ⟨w, rfl⟩ := l.eq_driver hdriver
              split at h
              · cases h
              · next hfree =>
                  obtain ⟨s, hstep, rfl⟩ := Option.map_eq_some_iff.mp h
                  exact .acquire i e w s he hctl (Nat.pos_of_ne_zero hfree) hstep
          · next hacquires =>
              obtain ⟨s, hstep, rfl⟩ := Option.map_eq_some_iff.mp h
              refine .job i e l s he (fun hdriver => ?_) hstep
              simpa [hdriver] using hacquires
  | release i =>
      simp only [step] at h
      split at h
      · cases h
      · next e he =>
          split at h
          · next hguard => cases h; exact .release i e he (Ctl.eq_returned hguard.1) hguard.2
          · cases h
  | openHistory =>
      obtain ⟨store, hstore, rfl⟩ := Option.map_eq_some_iff.mp h
      exact .openHistory store hstore

namespace Runtime

/-- Each job has a store exactly if the runtime has one, and has run like a job
on its own. -/
def Shares (rt : Runtime) : Prop :=
  ∀ e ∈ rt.jobs, rt.store.isSome = e.cfg.store.isSome ∧ e.Runs

theorem accept_runs (rt : Runtime) (cfg : Config) : (rt.accept cfg).Runs :=
  ⟨(rt.accept cfg).sys.store, by simp [accept, Sys.init], Transition.Reachable.refl _⟩

variable {rt rt' : Runtime} {l : RuntimeLabel}

/-- There is a store after a step if there was one before. -/
theorem Move.store_isSome (h : rt.Move l rt') : rt'.store.isSome = rt.store.isSome := by
  cases h with
  | refuse | release => rfl
  | spawn cfg upsertOk hfresh => simp [accept, Sys.init]
  | acquire i e w s he hctl hfree hstep => exact (Sys.step_store rfl hstep).kept
  | job i e l s he hctl hstep => exact (Sys.step_store rfl hstep).kept
  | openHistory store hstore => simp [hstore]

/-- A step of a runtime leaves a job alone, or moves it. -/
theorem Move.entry (h : rt.Move l rt') (hshares : rt.Shares) {i : Nat} {e : Entry}
    (he : rt.jobs[i]? = some e) : ∃ e', rt'.jobs[i]? = some e' ∧
      (e' = e ∨ ∃ own, e.Move own e' ∧ ∀ step, own = some step → l = .job i step) := by
  have hlen : i < rt.jobs.length := (List.getElem?_eq_some_iff.mp he).1
  have hstore : ∀ {j : Nat} {found : Entry}, rt.jobs[j]? = some found →
      rt.store.isSome = found.cfg.store.isSome :=
    fun hfound => (hshares _ (List.mem_of_getElem? hfound)).1
  have hset : ∀ {j : Nat} {found e' : Entry}, rt.jobs[j]? = some found →
      (∃ own, found.Move own e' ∧ ∀ step, own = some step → l = .job j step) →
      ∃ e'', (rt.jobs.set j e')[i]? = some e'' ∧
        (e'' = e ∨ ∃ own, e.Move own e'' ∧ ∀ step, own = some step → l = .job i step) := by
    intro j found e' hfound hown
    by_cases hj : j = i
    · subst hj
      cases he.symm.trans hfound
      exact ⟨e', by simp [hlen], Or.inr hown⟩
    · exact ⟨e, by simp [hj, he], Or.inl rfl⟩
  cases h with
  | refuse | openHistory => exact ⟨e, he, Or.inl rfl⟩
  | spawn cfg upsertOk hfresh =>
      exact ⟨e, (List.getElem?_append_left hlen).trans he, Or.inl rfl⟩
  | acquire j found w s hfound hctl hfree hstep =>
      refine hset hfound ⟨_, .acquire w _ _ (hstore hfound) hctl hstep, fun step hown => ?_⟩
      rw [Option.some.inj hown]
  | job j found step s hfound hctl hstep =>
      refine hset hfound ⟨_, .step step _ _ (hstore hfound) hctl hstep, fun step hown => ?_⟩
      rw [Option.some.inj hown]
  | release j found hfound hctl hheld =>
      exact hset hfound ⟨none, .release hctl hheld, fun step hown => by cases hown⟩

/-- The jobs after a step: those of before, and one that was spawned. -/
theorem Move.indices (h : rt.Move l rt') {i : Nat} {e' : Entry} (he' : rt'.jobs[i]? = some e') :
    (∃ e, rt.jobs[i]? = some e) ∨ ∃ cfg, rt.knows cfg.id = false ∧ e' = rt.accept cfg := by
  have hlen : i < rt'.jobs.length := (List.getElem?_eq_some_iff.mp he').1
  cases h with
  | refuse | openHistory => exact Or.inl ⟨e', he'⟩
  | spawn cfg upsertOk hfresh =>
      rcases Nat.lt_or_ge i rt.jobs.length with hold | hnew
      · exact Or.inl ⟨_, List.getElem?_eq_getElem hold⟩
      · right
        rw [List.getElem?_append_right hnew] at he'
        exact ⟨cfg, hfresh, (List.mem_singleton.mp (List.mem_of_getElem? he'))⟩
  | acquire | job | release =>
      rw [List.length_set] at hlen
      exact Or.inl ⟨_, List.getElem?_eq_getElem hlen⟩

/-- A job after a step: one of before, which has perhaps moved, or one that was
just spawned. -/
theorem Move.jobs (h : rt.Move l rt') (hshares : rt.Shares) {e' : Entry} (he' : e' ∈ rt'.jobs) :
    (∃ cfg, rt.knows cfg.id = false ∧ e' = rt.accept cfg) ∨
    ∃ i e, rt.jobs[i]? = some e ∧
      (e' = e ∨ ∃ own, e.Move own e' ∧ ∀ step, own = some step → l = .job i step) := by
  obtain ⟨i, hi⟩ := List.mem_iff_getElem?.mp he'
  rcases h.indices hi with ⟨e, he⟩ | hnew
  · obtain ⟨found, hfound, hcases⟩ := h.entry hshares he
    cases hi.symm.trans hfound
    exact Or.inr ⟨i, e, he, hcases⟩
  · exact Or.inl hnew

theorem Move.shares (h : rt.Move l rt') (hshares : rt.Shares) : rt'.Shares := by
  intro e' he'
  rw [h.store_isSome]
  rcases h.jobs hshares he' with ⟨cfg, -, rfl⟩ | ⟨i, e, he, hcases⟩
  · exact ⟨rfl, rt.accept_runs cfg⟩
  · have hbefore := hshares e (List.mem_of_getElem? he)
    rcases hcases with rfl | ⟨own, hown, -⟩
    · exact hbefore
    · rw [hown.same_cfg]
      exact ⟨hbefore.1, hown.runs hbefore.2⟩

theorem shares_of_run (hshares : rt.Shares) {ls : List RuntimeLabel}
    (hrun : Transition.run Runtime.step rt ls = some rt') : rt'.Shares :=
  Transition.invariant_of_run (P := fun _ _ => True) (I := Shares)
    (fun _ _ _ h _ hstep => (step_move hstep).shares h) hshares
    (Transition.stepsMeet_of_forall (fun _ _ => trivial) _ _) hrun

theorem shares_of_none {start : Runtime} (hstart : start.jobs = []) : start.Shares := by
  intro e he
  rw [hstart] at he
  cases he

/-- The invariant rule of the jobs of a runtime: what holds of a job that was just
spawned and is kept by its own moves holds of every job. -/
theorem run_entries {P : Runtime → RuntimeLabel → Prop} {A : Label → Prop} {I : Entry → Prop}
    (hA : ∀ rt i step, P rt (.job i step) → A step)
    (hinit : ∀ rt cfg, I (accept rt cfg))
    (hmove : ∀ e own e', e.Runs → I e → (∀ step, own = some step → A step) → e.Move own e' → I e')
    {start : Runtime} (hstart : start.jobs = []) {ls : List RuntimeLabel}
    (hmeet : Transition.StepsMeet Runtime.step P start ls)
    (hrun : Transition.run Runtime.step start ls = some rt) : ∀ e ∈ rt.jobs, I e := by
  refine Transition.run_induction_reached (fun _ rt => ∀ e ∈ rt.jobs, I e) ?_ ?_ hmeet hrun
  · intro e he
    rw [hstart] at he
    cases he
  · intro done m l t hm hI hP hstep e' he'
    have hshares := shares_of_run (shares_of_none hstart) hm
    rcases (step_move hstep).jobs hshares he' with ⟨cfg, -, rfl⟩ | ⟨i, e, he, hcases⟩
    · exact hinit m cfg
    · have hmem := List.mem_of_getElem? he
      rcases hcases with rfl | ⟨own, hown, hlabel⟩
      · exact hI e' hmem
      · refine hmove e own e' (hshares e hmem).2 (hI e hmem) (fun step hsome => ?_) hown
        exact hA m i step (hlabel step hsome ▸ hP)

/-- No two jobs have the same id. -/
def Distinct (rt : Runtime) : Prop := (rt.jobs.map (fun e => e.cfg.id)).Nodup

theorem Distinct.same (h : rt.Distinct) {i j : Nat} {e e' : Entry} (he : rt.jobs[i]? = some e)
    (he' : rt.jobs[j]? = some e') (hid : e.cfg.id = e'.cfg.id) : i = j := by
  have hi : i < (rt.jobs.map (fun e => e.cfg.id)).length := by
    rw [List.length_map]
    exact (List.getElem?_eq_some_iff.mp he).1
  refine (List.getElem?_inj hi h).mp ?_
  rw [List.getElem?_map, List.getElem?_map, he, he', Option.map_some, Option.map_some, hid]

theorem ne_of_not_knows {id : JobId} (h : rt.knows id = false) {e : Entry} (he : e ∈ rt.jobs) :
    e.cfg.id ≠ id := by
  simp only [knows, Bool.or_eq_false_iff, List.any_eq_false] at h
  exact fun hid => h.1.1 e he (by simpa using hid)

/-- What stands in a list of which one element was replaced. -/
theorem getElem?_of_set {α : Type} {l : List α} {i j : Nat} {a b : α}
    (h : (l.set i a)[j]? = some b) : i = j ∧ b = a ∨ i ≠ j ∧ l[j]? = some b := by
  rcases eq_or_ne i j with rfl | hne
  · rw [List.getElem?_set_self'] at h
    obtain ⟨_, -, rfl⟩ := Option.map_eq_some_iff.mp h
    exact Or.inl ⟨rfl, rfl⟩
  · rw [List.getElem?_set_ne hne] at h
    exact Or.inr ⟨hne, h⟩

/-- The ids of the jobs do not change when one of them moves. -/
theorem map_id_set {i : Nat} {e e' : Entry} (he : rt.jobs[i]? = some e) (hcfg : e'.cfg = e.cfg) :
    (rt.jobs.set i e').map (fun e => e.cfg.id) = rt.jobs.map (fun e => e.cfg.id) := by
  obtain ⟨hi, rfl⟩ := List.getElem?_eq_some_iff.mp he
  rw [List.map_set, hcfg]
  exact List.ext_getElem (by simp) (fun j hj hj' => by
    by_cases hij : i = j
    · subst hij; simp
    · simp [hij])

theorem Move.distinct (h : rt.Move l rt') (hdistinct : rt.Distinct) : rt'.Distinct := by
  cases h with
  | refuse | openHistory => exact hdistinct
  | spawn cfg upsertOk hfresh =>
      simp only [Distinct, List.map_append]
      refine List.nodup_append.mpr ⟨hdistinct, List.nodup_singleton _, ?_⟩
      intro id hid id' hid' heq
      obtain ⟨e, he, rfl⟩ := List.mem_map.mp hid
      rw [List.map_singleton, List.mem_singleton] at hid'
      exact ne_of_not_knows hfresh he (heq.trans hid')
  | acquire i e _ _ he | job i e _ _ he | release i e he =>
      unfold Distinct
      rw [map_id_set he]
      · exact hdistinct
      · rfl

/-- The rule for one job: what its own moves keep holds of it from then on. -/
theorem run_entry {I : Entry → Prop}
    (hmove : ∀ e own e', e.Runs → I e → e.Move own e' → I e') (hshares : rt.Shares)
    {i : Nat} {e : Entry} (he : rt.jobs[i]? = some e) (hI : I e) {ls : List RuntimeLabel}
    (hrun : Transition.run Runtime.step rt ls = some rt') :
    ∃ e', rt'.jobs[i]? = some e' ∧ e'.cfg = e.cfg ∧ I e' := by
  refine Transition.run_induction_reached (P := fun _ _ => True)
    (fun _ rt' => ∃ e', rt'.jobs[i]? = some e' ∧ e'.cfg = e.cfg ∧ I e') ⟨e, he, rfl, hI⟩ ?_
    (Transition.stepsMeet_of_forall (fun _ _ => trivial) _ _) hrun
  rintro done m l t hm ⟨e', he', hcfg, hI'⟩ - hstep
  have hm' := shares_of_run hshares hm
  obtain ⟨e'', he'', hcases⟩ := (step_move hstep).entry hm' he'
  refine ⟨e'', he'', ?_⟩
  rcases hcases with rfl | ⟨own, hown, -⟩
  · exact ⟨hcfg, hI'⟩
  · exact ⟨hown.same_cfg.trans hcfg,
      hmove e' own e'' (hm' e' (List.mem_of_getElem? he')).2 hI' hown⟩

end Runtime

end Execra
