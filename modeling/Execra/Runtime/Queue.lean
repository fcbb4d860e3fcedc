import Execra.Job.Cancellation
import Execra.Runtime.Permits

/-!
A job that is cancelled while it waits for its permit. The driver does not look
at the token before its loop is over, so the job keeps its place in the queue,
and when its turn comes its process is spawned like any other. The wait task
finds the token cancelled, and so does the driver at the end: the outcome of
such a process is `Cancelled`.
-/

namespace Execra

/-- The token is cancelled, and the driver has not read it before. -/
def Sys.CalledOff (s : Sys) : Prop := s.token = true ∧ s.verdict ≠ some false

theorem Sys.CalledOff.step {cfg : Config} {s t : Sys} {l : Label} (h : s.CalledOff)
    (hstep : s.step cfg l = some t) : t.CalledOff := by
  obtain ⟨htoken, hverdict⟩ := h
  cases Sys.step_hearing hstep with
  | same _ htoken' _ _ hverdict' => exact ⟨htoken'.trans htoken, hverdict' ▸ hverdict⟩
  | cancel htoken' _ _ hverdict' => exact ⟨htoken', hverdict' ▸ hverdict⟩
  | failSpawn _ _ _ _ htoken' _ hverdict' => exact ⟨htoken'.trans htoken, hverdict' ▸ hverdict⟩
  | judge _ htoken' _ _ hverdict' =>
      refine ⟨htoken'.trans htoken, ?_⟩
      rw [hverdict', htoken]
      simp

theorem Entry.Move.calledOff {e e' : Entry} {l : Option Label} (hmove : e.Move l e')
    (h : e.sys.CalledOff) : e'.sys.CalledOff := by
  cases hmove with
  | acquire w store s hstore hctl hstep =>
      exact Sys.CalledOff.step (s := e.sys.withStore store) h hstep
  | step l store s hstore hctl hstep =>
      exact Sys.CalledOff.step (s := e.sys.withStore store) h hstep
  | release => exact h

/-- Neither a process nor `JobStarted`. -/
def Sys.Unstarted (s : Sys) : Prop :=
  s.child = none ∧ ∀ event ∈ s.log, ∀ pid, event.body ≠ .jobStarted pid

theorem Sys.Queued.unstarted {cfg : Config} {s : Sys} (h : s.Queued cfg) : s.Unstarted := by
  refine ⟨h.child, fun event hevent pid heq => ?_⟩
  obtain ⟨spec, hbody⟩ := h.log event hevent
  rw [hbody] at heq
  cases heq

/-- A process that was spawned after its job was called off is cancelled. -/
theorem Entry.Runs.decided {e : Entry} (hruns : e.Runs) (hoff : e.sys.CalledOff)
    (hchild : e.sys.child.isSome) : e.sys.DecidedCancelled := by
  obtain ⟨store, -, hs⟩ := hruns
  have hheard : ¬ (e.sys.withStore store).Deaf := by
    rintro (hfailed | hread)
    · have hnone : e.sys.child = none := hs.judged.2.2 hfailed
      rw [hnone] at hchild
      cases hchild
    · exact hoff.2 hread
  have hdecided := hs.decided hheard
  exact ⟨hdecided.snapshot, hdecided.event, hdecided.handle, hdecided.returned⟩

/-- A job that is cancelled while it waits for its permit has neither a process
nor `JobStarted` as long as it waits; and if its process is spawned after all,
its outcome is `Cancelled` wherever it has one. -/
theorem cancelled_in_queue {config : RuntimeConfig} {maxConcurrent : Nat} {store : Option Store}
    {persisted : List Job} {ls more : List RuntimeLabel} {rt rt' : Runtime}
    (hrun : Transition.run Runtime.step
      (Runtime.fromParts config maxConcurrent store persisted) ls = some rt)
    {i : Nat} {e : Entry} (he : rt.jobs[i]? = some e) (hwaiting : e.permit = .waiting)
    (haccepted : 0 < e.sys.accepted) (hmore : Transition.run Runtime.step rt more = some rt') :
    ∃ e', rt'.jobs[i]? = some e' ∧ e'.cfg = e.cfg ∧
      (e'.permit = .waiting → e'.sys.snapshot.state = .queued ∧ e'.sys.Unstarted) ∧
      (e'.sys.child.isSome → e'.sys.DecidedCancelled) := by
  obtain ⟨hruns, hplaced⟩ := Runtime.jobs_placed rfl hrun e (List.mem_of_getElem? he)
  have hoff : e.sys.CalledOff := by
    obtain ⟨own, -, hs⟩ := hruns
    refine ⟨hs.tokened.accepted.mpr haccepted, ?_⟩
    cases hplaced with
    | waiting _ hqueued => rw [hqueued.verdict]; simp
    | held hpermit => rw [hwaiting] at hpermit; cases hpermit
    | released hpermit => rw [hwaiting] at hpermit; cases hpermit
  have hshares := Runtime.shares_of_run (Runtime.shares_of_none rfl) hrun
  obtain ⟨e', he', hcfg, hruns', hplaced', hoff'⟩ :=
    Runtime.run_entry (I := fun e => e.Runs ∧ e.Placed ∧ e.sys.CalledOff)
      (fun _ _ _ _ h hmove => ⟨hmove.runs h.1, h.2.1.move hmove, hmove.calledOff h.2.2⟩)
      hshares he ⟨hruns, hplaced, hoff⟩ hmore
  refine ⟨e', he', hcfg, fun hwaiting' => ?_, hruns'.decided hoff'⟩
  cases hplaced' with
  | waiting _ hqueued => exact ⟨by rw [hqueued.snapshot]; rfl, hqueued.unstarted⟩
  | held hpermit => rw [hwaiting'] at hpermit; cases hpermit
  | released hpermit => rw [hwaiting'] at hpermit; cases hpermit

/-- One job has the only permit, and the other is cancelled in the queue. -/
def queuedRun : List RuntimeLabel :=
  spawnTwo ++ onJob 0 (drive 3) ++ onJob 1 (drive 2 ++ [.cancelCheck, .cancelToken])

theorem queuedRun_runs : (Transition.run Runtime.step soloRuntime queuedRun).isSome = true := by
  decide

def queuedEnd : Runtime := Transition.endOf _ _ queuedRun queuedRun_runs

/-- The first job cannot be spawned and gives its permit back. The second one
is spawned, is sent SIGTERM, and ends. -/
def afterQueue : List RuntimeLabel :=
  onJob 0 (drive 1 ++ [.driver { spawned := .error ⟨"No such file or directory"⟩ }] ++ drive 7) ++
    [.release 0] ++ onJob 1 (drive 10 ++
      [.wait .go {}, .wait .cancel {}] ++ List.replicate 4 (.wait .go {}) ++
      [.exitLeader .term (.signaled 15), .close .stdout .eof, .close .stderr .eof,
        .wait .child {}, .wait .go {}] ++ drive 18)

theorem afterQueue_runs : (Transition.run Runtime.step queuedEnd afterQueue).isSome = true := by
  decide

def afterQueueEnd : Runtime := Transition.endOf _ _ afterQueue afterQueue_runs

/-- The second job, in the queue and at its end. -/
def queuedJob : Entry := queuedEnd.jobs.get ⟨1, by decide⟩

def dequeuedJob : Entry := afterQueueEnd.jobs.get ⟨1, by decide⟩

theorem cancelled_in_queue_dequeued :
    dequeuedJob.sys.child = some 1 ∧ dequeuedJob.sys.DecidedCancelled := by
  obtain ⟨e', he', -, -, hdecided⟩ := cancelled_in_queue
    (Transition.run_endOf soloRuntime queuedRun queuedRun_runs)
    (i := 1) (e := queuedJob) rfl (by decide) (by decide)
    (Transition.run_endOf queuedEnd afterQueue afterQueue_runs)
  have hsame : dequeuedJob = e' := Option.some.inj he'
  subst hsame
  exact ⟨by decide, hdecided (by decide)⟩

/-- A call of `cancel` is accepted while the job is queued, and its process is
spawned all the same. -/
theorem cancelled_in_queue_starts :
    Runtime.Reachable soloRuntime queuedEnd ∧ queuedEnd.jobs[1]? = some queuedJob ∧
    queuedJob.permit = .waiting ∧ queuedJob.sys.snapshot.state = .queued ∧
    0 < queuedJob.sys.accepted ∧ queuedJob.sys.Unstarted ∧
    Runtime.Reachable queuedEnd afterQueueEnd ∧ afterQueueEnd.jobs[1]? = some dequeuedJob ∧
    ¬ dequeuedJob.sys.Unstarted ∧
    ∃ event ∈ dequeuedJob.sys.log, event.body = .jobStarted 1 := by
  have hlog : queuedJob.sys.log.map Event.body = [.jobCreated { program := "tool" }] := by decide
  have hunstarted : queuedJob.sys.Unstarted := by
    refine ⟨by decide, fun event hevent pid heq => ?_⟩
    have hmem : event.body ∈ queuedJob.sys.log.map Event.body := List.mem_map_of_mem hevent
    rw [hlog, heq] at hmem
    simp at hmem
  have hstarted : dequeuedJob.sys.child = some 1 := by decide
  have hmem : EventBody.jobStarted 1 ∈ dequeuedJob.sys.log.map Event.body := by decide
  exact ⟨Transition.reachable_endOf _ _ queuedRun_runs, rfl, by decide, by decide, by decide,
    hunstarted, Transition.reachable_endOf _ _ afterQueue_runs, rfl,
    fun h => absurd (hstarted.symm.trans h.1) nofun, List.mem_map.mp hmem⟩

end Execra
