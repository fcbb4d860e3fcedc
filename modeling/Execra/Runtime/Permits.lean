import Execra.Job.Duties
import Execra.Job.Signals
import Execra.Runtime.Jobs

/-!
Permits. The driver of a job acquires a permit once, as the first thing it does
of its own, and drops it when `drive_job` has returned; in between every way
through `drive_job` leads over the finalization of the job and, if its process
could be spawned, over the exit that the wait task has reported. So a process
that has not been reaped belongs to a driver that holds a permit, and there are
no more of them than permits.
-/

namespace Execra

open Program

/-! The driver acquires its permit once. -/

def Op.isAcquire : Op → Bool
  | .acquirePermit => true
  | _ => false

/-- A program of a driver that has its permit. -/
def Driver.Permitted {α : Type} (p : Driver α) : Prop := p.Every (fun o => o.isAcquire = false)

theorem Driver.Usual.permitted {α : Type} {cfg : Config} {p : Driver α} (h : p.Usual cfg) :
    p.Permitted :=
  Every.mono h (fun o ho => by cases o <;> first | rfl | cases ho)

/-- A driver that has its permit. -/
def Ctl.Permitted : Ctl → Prop
  | .run p => Driver.Permitted p
  | .top _ | .returned => True

theorem Ctl.Permitted.acquires {c : Ctl} (h : c.Permitted) : c.acquires = false := by
  cases c with
  | run p =>
      cases p with
      | ret next => rfl
      | op o k => cases o <;> first | rfl | cases h.1
  | top v => rfl
  | returned => rfl

theorem Ctl.permitted_iff {c : Ctl} :
    c.Permitted ↔ c.Every (fun o => o.isAcquire = false) := by
  cases c <;> exact Iff.rfl

/-- The driver does not come back for another permit. -/
theorem Ctl.Permitted.step {cfg : Config} {s t : Sys} {l : Label} (h : s.ctl.Permitted)
    (hstep : s.step cfg l = some t) : t.ctl.Permitted := by
  rw [Ctl.permitted_iff] at h ⊢
  exact h.step (fun o ho => by cases o <;> first | rfl | cases ho) hstep

/-! Waiting for the permit. -/

/-- The job is announced and its driver has done nothing yet. -/
structure Sys.Queued (cfg : Config) (s : Sys) : Prop where
  ctl : s.ctl = settle (spawnJob cfg) ∨
    s.ctl = .run (.op (.insertEvent
      { job := cfg.id, body := .jobCreated cfg.spec, time := cfg.createdAt })
      (fun _ => launchJob cfg)) ∨
    s.ctl = settle (launchJob cfg)
  wait : s.wait.pc = .unspawned
  child : s.child = none
  snapshot : s.snapshot = cfg.initialJob
  spawnFailed : s.spawnFailed = false
  verdict : s.verdict = none
  log : ∀ e ∈ s.log, ∃ spec, e.body = .jobCreated spec

theorem Sys.queued_init (cfg : Config) : (Sys.init cfg).Queued cfg where
  ctl := Or.inl rfl
  wait := rfl
  child := rfl
  snapshot := rfl
  spawnFailed := rfl
  verdict := rfl
  log _ he := (List.not_mem_nil he).elim

theorem Sys.Queued.step {cfg : Config} {s t : Sys} {l : Label} (h : s.Queued cfg)
    (hwaits : l.isDriver = true → s.ctl.acquires = false) (hstep : s.step cfg l = some t) :
    t.Queued cfg := by
  cases Sys.step_by hstep with
  | driver w hdriver =>
      have hother := hwaits rfl
      unfold Sys.driverStep at hdriver
      rcases h.ctl with hctl | hctl | hctl
      · rw [hctl] at hdriver
        cases hdriver
        refine ⟨Or.inr (Or.inl rfl), h.wait, h.child, h.snapshot, h.spawnFailed, h.verdict, ?_⟩
        intro e he
        rcases List.mem_append.mp he with he | he
        · exact h.log e he
        · exact ⟨_, by rw [List.mem_singleton.mp he]⟩
      · rw [hctl] at hdriver
        cases hdriver
        exact ⟨Or.inr (Or.inr rfl), h.wait, h.child, h.snapshot, h.spawnFailed, h.verdict, h.log⟩
      · rw [hctl] at hother
        cases hother
  | wait c w hwait => exact absurd h.wait (Sys.waitStep_move hwait).spawned.1
  | world l hworld =>
      obtain ⟨hctl, hwait, hchild, hsnapshot, hspawn, hverdict, hlog⟩ := h
      cases hworld with
      | arrive stream _ hsome | close stream _ hsome => rw [hchild] at hsome; cases hsome
      | group l g hl hsome => rw [hchild] at hsome; cases hsome
      | _ => exact ⟨hctl, hwait, hchild, hsnapshot, hspawn, hverdict, hlog⟩

/-- The driver of a queued job gets its permit. -/
theorem Sys.Queued.acquire {cfg : Config} {s t : Sys} {w : Oracle} (h : s.Queued cfg)
    (hctl : s.ctl.acquires = true) (hstep : s.step cfg (.driver w) = some t) :
    t.ctl.Permitted := by
  obtain ⟨k, hlaunch, hgranted⟩ := launchJob_acquires cfg
  simp only [Sys.step, Sys.driverStep] at hstep
  rcases h.ctl with hrun | hrun | hrun
  · rw [hrun] at hctl; cases hctl
  · rw [hrun] at hctl; cases hctl
  · rw [hrun, hlaunch] at hstep
    cases hstep
    exact Ctl.permitted_iff.mpr (every_settle (hgranted true).permitted)

theorem Sys.step_returned {cfg : Config} {s t : Sys} {l : Label} (h : s.ctl = .returned)
    (hstep : s.step cfg l = some t) : t.ctl = .returned := by
  rcases (Sys.step_move hstep).frame with hdriver | ⟨hctl, -⟩
  · cases hdriver <;> simp_all
  · exact hctl.trans h

/-- Where the driver of a job stands, by what has become of its permit. -/
inductive Entry.Placed (e : Entry) : Prop where
  | waiting (hpermit : e.permit = .waiting) (hqueued : e.sys.Queued e.cfg)
  | held (hpermit : e.permit = .held) (hctl : e.sys.ctl.Permitted)
  | released (hpermit : e.permit = .released) (hctl : e.sys.ctl = .returned)

theorem Sys.Queued.withStore {cfg : Config} {s : Sys} (h : s.Queued cfg) (store : Option Store) :
    (s.withStore store).Queued cfg :=
  ⟨h.ctl, h.wait, h.child, h.snapshot, h.spawnFailed, h.verdict, h.log⟩

theorem Entry.Placed.move {e e' : Entry} {l : Option Label} (h : e.Placed)
    (hmove : e.Move l e') : e'.Placed := by
  cases hmove with
  | acquire w store s hstore hctl hstep =>
      cases h with
      | waiting hpermit hqueued => exact .held rfl ((hqueued.withStore store).acquire hctl hstep)
      | held hpermit hpermitted => rw [hpermitted.acquires] at hctl; cases hctl
      | released hpermit hreturned => rw [hreturned] at hctl; cases hctl
  | step l store s hstore hctl hstep =>
      cases h with
      | waiting hpermit hqueued =>
          exact .waiting hpermit ((hqueued.withStore store).step hctl hstep)
      | held hpermit hpermitted =>
          have hbefore : (e.sys.withStore store).ctl.Permitted := hpermitted
          exact .held hpermit (hbefore.step hstep)
      | released hpermit hreturned =>
          have hbefore : (e.sys.withStore store).ctl = .returned := hreturned
          exact .released hpermit (Sys.step_returned hbefore hstep)
  | release hctl hheld => exact .released rfl hctl

/-! Processes. -/

/-- `child.wait()` has returned to the wait task with the status of the leader. -/
def Sys.reaped (s : Sys) : Bool :=
  s.wait.pc.reaped && match s.group.waitStatus with
    | some (.ok _) => true
    | _ => false

/-- The leader process of the job has been spawned and not been reaped. -/
def Entry.lives (e : Entry) : Bool := e.sys.child.isSome && !e.sys.reaped

def Entry.holds (e : Entry) : Bool := e.permit = .held

/-- The step makes `child.wait()` fail. -/
def Label.failsWait : Label → Bool
  | .failWait _ => true
  | _ => false

/-- `child.wait()` has not failed. -/
def Group.Waitable (g : Group) : Prop := ∀ error, g.waitStatus ≠ some (.error error)

private theorem group_waitable {g g' : Group} (h : g.Waitable) :
    (∀ cause status, g.exitLeader cause status = some g' → g'.Waitable) ∧
    (∀ i cause, g.exitDescendant i cause = some g' → g'.Waitable) ∧
    (∀ i ignoresTerm, g.fork i ignoresTerm = some g' → g'.Waitable) := by
  refine ⟨fun cause status hexit => ?_, fun i cause hexit => ?_, fun i ignoresTerm hfork => ?_⟩
  · unfold Group.exitLeader at hexit
    split at hexit
    · cases hexit; exact fun error => nofun
    · cases hexit
  · unfold Group.exitDescendant at hexit
    split at hexit
    · split at hexit
      · cases hexit; exact h
      · cases hexit
    · cases hexit
  · unfold Group.fork at hfork
    split at hfork
    · split at hfork
      · cases hfork; exact h
      · cases hfork
    · cases hfork

private theorem signal_waitable {g : Group} (h : g.Waitable) (procGroup : Option ProcessGroup) :
    (terminateChild g procGroup).Waitable ∧ (killChild g procGroup).Waitable := by
  cases procGroup <;> exact ⟨h, h⟩

theorem Sys.step_waitable {cfg : Config} {s t : Sys} {l : Label} (hl : l.failsWait = false)
    (h : s.group.Waitable) (hstep : s.step cfg l = some t) : t.group.Waitable := by
  have hgroup : ∀ {r : Option Group}, (∀ g, r = some g → g.Waitable) →
      (if s.child.isSome then r.map (fun group => { s with group }) else none) = some t →
      t.group.Waitable := by
    intro r hr hif
    split at hif
    · obtain ⟨g, hg, rfl⟩ := Option.map_eq_some_iff.mp hif
      exact hr g hg
    · cases hif
  cases l with
  | failWait error => cases hl
  | exitLeader cause status => exact hgroup (fun g => (group_waitable h).1 cause status) hstep
  | exitDescendant i cause => exact hgroup (fun g => (group_waitable h).2.1 i cause) hstep
  | fork i ignoresTerm => exact hgroup (fun g => (group_waitable h).2.2 i ignoresTerm) hstep
  | driver w =>
      cases Sys.driverStep_move hstep with
      | op w o k hctl =>
          change (s.act cfg w o).2.group.Waitable
          rw [(s.act_leaves cfg w o).group]
          exact h
      | _ => exact h
  | wait c w =>
      cases Sys.waitStep_move hstep with
      | terminate => exact (signal_waitable h s.wait.procGroup).1
      | kill => exact (signal_waitable h s.wait.procGroup).2
      | _ => exact h
  | arrive stream | close stream =>
      cases Sys.step_by hstep with
      | world _ hworld =>
          cases hworld with
          | group l g hl' => cases hl'
          | _ => cases stream <;> exact h
  | _ =>
      cases Sys.step_by hstep with
      | world _ hworld =>
          cases hworld with
          | group l g hl' => cases hl'
          | _ => exact h

/-- A process that has not been reaped belongs to a driver that holds a permit. -/
theorem Entry.holds_of_lives {e : Entry} (hruns : e.Runs) (hplaced : e.Placed)
    (hwaitable : e.sys.group.Waitable) (h : e.lives = true) : e.holds = true := by
  simp only [lives, Bool.and_eq_true, Bool.not_eq_true'] at h
  obtain ⟨hchild, hreaped⟩ := h
  obtain ⟨store, -, hs⟩ := hruns
  cases hplaced with
  | waiting hpermit hqueued => rw [hqueued.child] at hchild; cases hchild
  | held hpermit hctl => simp [holds, hpermit]
  | released hpermit hctl =>
      obtain ⟨cancelled, state, hverdict, -⟩ := hs.verdict_of_returned hctl hchild
      have hread : (e.sys.withStore store).verdict.isSome := by rw [hverdict]; rfl
      have hover : LoopOver e.sys.selected := hs.judged.2.1 hread
      obtain ⟨outcome, hexit⟩ := Option.isSome_iff_exists.mp hover.2
      have hdelivered : e.sys.wait.pc.delivered = true := (hs.delivered_of_exit hexit).2
      have hpc : e.sys.wait.pc.reaped = true := by
        cases hwait : e.sys.wait.pc <;> rw [hwait] at hdelivered <;> first | rfl | cases hdelivered
      obtain ⟨status, hstatus⟩ := Option.isSome_iff_exists.mp (hs.signalled.reaped hpc)
      have hstatus' : e.sys.group.waitStatus = some status := hstatus
      cases status with
      | ok status => simp [Sys.reaped, hpc, hstatus'] at hreaped
      | error error => exact absurd hstatus' (hwaitable error)

/-- A driver that has dropped its permit has finalized its job. -/
theorem Entry.finalized_of_released {e : Entry} (hruns : e.Runs) (hplaced : e.Placed)
    (h : e.permit = .released) : e.sys.snapshot.state = .finalized ∧
      ∃ event ∈ e.sys.log, ∃ outcome, event.body = .finalized outcome := by
  obtain ⟨store, -, hs⟩ := hruns
  cases hplaced with
  | waiting hpermit => rw [hpermit] at h; cases h
  | held hpermit => rw [hpermit] at h; cases h
  | released hpermit hctl =>
      have hstate : e.sys.snapshot.state = .finalized :=
        hs.readable.1.outcome.mp (hs.outcome_of_returned hctl)
      obtain ⟨outcome, hagreed⟩ := hs.readable.2 (Or.inr (hs.answered hctl))
      obtain ⟨event, hevent, hbody⟩ := hagreed.sent
      have hmem : event ∈ e.sys.log.filter (fun e => !e.body.isCancelled) := hs.merged.own ▸ hevent
      exact ⟨hstate, event, (List.mem_filter.mp hmem).1, outcome, hbody⟩

/-! The semaphore. -/

private theorem countP_set_add {α : Type} (p : α → Bool) {l : List α} {i : Nat} {a : α}
    (h : l[i]? = some a) (b : α) :
    (l.set i b).countP p + (if p a then 1 else 0) = l.countP p + (if p b then 1 else 0) := by
  obtain ⟨hi, rfl⟩ := List.getElem?_eq_some_iff.mp h
  have hcounted := List.boole_getElem_le_countP (p := p) hi
  rw [List.countP_set hi]
  omega

/-- The permits that drivers hold. -/
def Runtime.heldPermits (rt : Runtime) : Nat := rt.jobs.countP Entry.holds

/-- No permit is made or lost. -/
theorem Runtime.Move.permits {rt rt' : Runtime} {l : RuntimeLabel} (h : rt.Move l rt')
    (hplaced : ∀ e ∈ rt.jobs, e.Placed) :
    rt'.permits + rt'.heldPermits = rt.permits + rt.heldPermits := by
  unfold heldPermits
  cases h with
  | refuse | openHistory => rfl
  | spawn cfg upsertOk => simp [accept, Entry.holds]
  | acquire i e w s he hctl hfree hstep =>
      have hwaiting : e.holds = false := by
        cases hplaced e (List.mem_of_getElem? he) with
        | waiting hpermit => simp [Entry.holds, hpermit]
        | held hpermit hpermitted => rw [hpermitted.acquires] at hctl; cases hctl
        | released hpermit hreturned => rw [hreturned] at hctl; cases hctl
      have hcount := countP_set_add Entry.holds he { e with sys := s, permit := .held }
      have hheld : Entry.holds { e with sys := s, permit := .held } = true := rfl
      simp only [hwaiting, hheld, Bool.false_eq_true, ↓reduceIte] at hcount
      simp only
      omega
  | job i e l s he hctl hstep =>
      have hcount := countP_set_add Entry.holds he { e with sys := s }
      have hsame : Entry.holds { e with sys := s } = e.holds := rfl
      rw [hsame] at hcount
      simp only
      omega
  | release i e he hctl hheld =>
      have hcount := countP_set_add Entry.holds he { e with permit := .released }
      have hbefore : e.holds = true := by simp [Entry.holds, hheld]
      have hafter : Entry.holds { e with permit := .released } = false := rfl
      simp only [hbefore, hafter, Bool.false_eq_true, ↓reduceIte] at hcount
      simp only
      omega

def RuntimeLabel.failsWait : RuntimeLabel → Bool
  | .job _ l => l.failsWait
  | _ => false

section Run

variable {config : RuntimeConfig} {maxConcurrent : Nat} {store : Option Store}
  {persisted : List Job} {ls : List RuntimeLabel} {rt : Runtime}

/-- The jobs of a runtime, whatever its steps. -/
theorem Runtime.jobs_placed {start : Runtime} (hstart : start.jobs = [])
    (hrun : Transition.run Runtime.step start ls = some rt) :
    ∀ e ∈ rt.jobs, e.Runs ∧ e.Placed := by
  have hshares := Runtime.shares_of_run (Runtime.shares_of_none hstart) hrun
  have hplaced := Runtime.run_entries (P := fun _ _ => True) (A := fun _ => True)
    (I := Entry.Placed) (fun _ _ _ _ => trivial)
    (fun _ cfg => .waiting rfl (Sys.queued_init _))
    (fun _ _ _ _ h _ hmove => h.move hmove) hstart
    (Transition.stepsMeet_of_forall (fun _ _ => trivial) _ _) hrun
  exact fun e he => ⟨(hshares e he).2, hplaced e he⟩

theorem Runtime.permits_constant
    (hrun : Transition.run Runtime.step
      (Runtime.fromParts config maxConcurrent store persisted) ls = some rt) :
    rt.permits + rt.heldPermits = max maxConcurrent 1 := by
  refine Transition.run_induction_reached (P := fun _ _ => True)
    (fun _ rt => rt.permits + rt.heldPermits = max maxConcurrent 1) rfl ?_
    (Transition.stepsMeet_of_forall (fun _ _ => trivial) _ _) hrun
  intro done m l t hm hconstant _ hstep
  have hplaced : ∀ e ∈ m.jobs, e.Placed := fun e he => (Runtime.jobs_placed rfl hm e he).2
  rw [(Runtime.step_move hstep).permits hplaced, hconstant]

/-- In a run in which no `child.wait()` fails there are never more unreaped
leader processes than permits. In every run the permits that are free and those
that drivers hold are as many as there were, and a permit is released only when
its job is finalized and `Finalized` has been sent. -/
theorem concurrency_bound
    (hrun : Transition.run Runtime.step
      (Runtime.fromParts config maxConcurrent store persisted) ls = some rt) :
    (Transition.StepsMeet Runtime.step (fun _ l => l.failsWait = false)
        (Runtime.fromParts config maxConcurrent store persisted) ls →
      rt.jobs.countP Entry.lives ≤ max 1 maxConcurrent) ∧
    rt.permits + rt.heldPermits = max 1 maxConcurrent ∧
    ∀ e ∈ rt.jobs, e.permit = .released → e.sys.snapshot.state = .finalized ∧
      ∃ event ∈ e.sys.log, ∃ outcome, event.body = .finalized outcome := by
  have hplaced := Runtime.jobs_placed rfl hrun
  have hconstant : rt.permits + rt.heldPermits = max 1 maxConcurrent := by
    rw [Runtime.permits_constant hrun, max_comm]
  refine ⟨fun hmeet => ?_, hconstant, fun e he hreleased => ?_⟩
  · have hwaitable : ∀ e ∈ rt.jobs, e.sys.group.Waitable :=
      Runtime.run_entries (A := fun l => l.failsWait = false) (I := fun e => e.sys.group.Waitable)
        (fun _ _ _ h => h) (fun _ _ => nofun)
        (fun e own e' _ hwaitable hwaits hmove => by
          cases hmove with
          | acquire w store s hstore hctl hstep =>
              exact Sys.step_waitable (s := e.sys.withStore store) (hwaits _ rfl) hwaitable hstep
          | step l store s hstore hctl hstep =>
              exact Sys.step_waitable (s := e.sys.withStore store) (hwaits _ rfl) hwaitable hstep
          | release => exact hwaitable)
        rfl hmeet hrun
    have hlives : rt.jobs.countP Entry.lives ≤ rt.heldPermits := by
      refine List.countP_mono_left (fun e he hlives => ?_)
      exact Entry.holds_of_lives (hplaced e he).1 (hplaced e he).2 (hwaitable e he) hlives
    omega
  · exact Entry.finalized_of_released (hplaced e he).1 (hplaced e he).2 hreleased

end Run

/-- Steps of job `i`. -/
def onJob (i : Nat) (ls : List Label) : List RuntimeLabel := ls.map (.job i)

/-- A runtime with one permit, in memory. -/
def soloRuntime : Runtime := .fromParts {} 1 none []

def spawnTwo : List RuntimeLabel :=
  [.spawn plainConfig true, .spawn { plainConfig with id := ⟨1⟩ } true]

/-- The second job queues until the first is over, and runs. -/
def serialRun : List RuntimeLabel :=
  spawnTwo ++ onJob 1 (drive 2) ++ onJob 0 (drive 12 ++ leaveQuietly ++ drive 18) ++
    [.release 0] ++ onJob 1 (drive 10)

theorem serialRun_runs : (Transition.run Runtime.step soloRuntime serialRun).isSome = true := by
  decide

def serialEnd : Runtime := Transition.endOf _ _ serialRun serialRun_runs

theorem concurrency_bound_serial :
    serialEnd.jobs.map Entry.lives = [false, true] ∧
    serialEnd.jobs.countP Entry.lives ≤ 1 ∧ serialEnd.permits + serialEnd.heldPermits = 1 ∧
    ∀ e ∈ serialEnd.jobs, e.permit = .released → e.sys.snapshot.state = .finalized ∧
      ∃ event ∈ e.sys.log, ∃ outcome, event.body = .finalized outcome := by
  have h := concurrency_bound (Transition.run_endOf soloRuntime serialRun serialRun_runs)
  exact ⟨by decide, h.1 (by decide), h.2⟩

end Execra
