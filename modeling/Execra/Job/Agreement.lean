import Execra.Job.Signals

/-!
How event, signal and outcome agree on a cancellation. The wait task sends the
event and the signal on the same branch, and that branch decides the outcome.
The outcome follows the token, though, not the branch: a call that comes after
the child has left by itself, but before the driver reads the token, makes a
cancelled job without event or signal.
-/

namespace Execra

/-- Exactly one `Cancelled` between `JobStarted` and `Exited`. -/
def CancelledOnce (w : List EventBody) : Prop :=
  ∃ before pid between code after,
    w = before ++ .jobStarted pid :: (between ++ .exited code :: after) ∧
      between.countP EventBody.isCancelled = 1

theorem CancelledOnce.count_pos {w : List EventBody} (h : CancelledOnce w) :
    0 < w.countP EventBody.isCancelled := by
  obtain ⟨before, pid, between, code, after, rfl, hone⟩ := h
  simp only [List.countP_append, List.countP_cons]
  omega

/-- In a log that holds `Exited`, every `Cancelled` stands before it. -/
theorem cancelledOnce_iff {life : Life} {w : List EventBody} (h : life.Shape w)
    (hexited : life = .exited ∨ life = .finalized)
    (hcount : w.countP EventBody.isCancelled ≤ 1) :
    CancelledOnce w ↔ w.countP EventBody.isCancelled = 1 := by
  constructor
  · intro honce
    have hpos := honce.count_pos
    omega
  · intro hone
    have hquiet : ∀ after : List EventBody, (∀ b ∈ after, b.isLifecycle = false) →
        after.countP EventBody.isCancelled = 0 := by
      intro after hafter
      rw [List.countP_eq_zero]
      intro b hb hcancelled
      have houtside := hafter b hb
      cases b <;> simp [EventBody.isCancelled] at hcancelled
      cases houtside
    rcases hexited with rfl | rfl
    · obtain ⟨command, pid, middle, rfl, before, code, after, rfl, -, -, hafter⟩ := h
      refine ⟨[.jobCreated command], pid, before, code, after, rfl, ?_⟩
      simpa [EventBody.isCancelled, hquiet after hafter] using hone
    · obtain ⟨command, pid, middle, outcome, rfl, before, code, after, rfl, -, -, hafter⟩ := h
      refine ⟨[.jobCreated command], pid, before, code, after ++ [.finalized outcome], ?_, ?_⟩
      · simp
      · simpa [EventBody.isCancelled, hquiet after hafter] using hone

section Agreement

variable {cfg : Config} {s : Sys}

/-- A job with a verdict has received its child's exit: the wait task is done. -/
theorem Sys.Reachable.finished_of_verdict (hs : Sys.Reachable cfg s)
    (hread : s.verdict.isSome) : ∃ branch, s.wait.pc = .finished branch := by
  have hover : LoopOver s.selected := hs.judged.2.1 hread
  obtain ⟨outcome, hexit⟩ := Option.isSome_iff_exists.mp hover.2
  have hdelivered := (hs.delivered_of_exit hexit).2
  cases hpc : s.wait.pc with
  | finished branch => exact ⟨branch, rfl⟩
  | _ => rw [hpc] at hdelivered; cases hdelivered

/-- And the events say so. -/
theorem Sys.Reachable.exited_of_verdict (hs : Sys.Reachable cfg s)
    (hread : s.verdict.isSome) :
    ∃ life : Life, (life = .exited ∨ life = .finalized) ∧
      life.Shape (s.log.map Event.body) := by
  obtain ⟨branch, hpc⟩ := hs.finished_of_verdict hread
  have htasks : s.waitTasks ≠ [] := by
    cases hs.tasked with
    | unspawned _ hinit => rw [hinit] at hpc; cases hpc
    | spawned pid _ hone => simp [hone]
  obtain ⟨life, hrun, hown, -⟩ := hs.merged.life
  refine ⟨life, ?_, Life.shape_of_run hrun⟩
  obtain ⟨life', hrun', hagrees⟩ := hs.inLifecycle
  have hsame : life' = life.forget := Option.some.inj (hrun'.symm.trans hown)
  subst hsame
  cases life with
  | started c =>
      have hunread : s.verdict = none := hagrees.2.2
      rw [hunread] at hread
      cases hread
  | exited => exact Or.inl rfl
  | finalized => exact Or.inr rfl
  | _ => exact absurd hagrees htasks

/-- A started job with an outcome has left its wait task by one branch. The
event and the signal were sent exactly on the cancel branch, and then the
outcome is `Cancelled`; it is `Cancelled` exactly if the driver has found the
token cancelled, which takes an accepted call. -/
theorem cancellation_agreement (hs : Sys.Reachable cfg s) (hchild : s.child.isSome)
    {outcome : Outcome} (hsome : s.job.outcome = some outcome) :
    (∃ branch, s.wait.pc = .finished branch ∧
      (CancelledOnce (s.log.map Event.body) ↔ branch = .cancelled) ∧
      (.term ∈ s.group.sent ↔ branch = .cancelled) ∧
      (branch = .cancelled → outcome.isCancelled = true)) ∧
    (outcome.isCancelled = true ↔ s.verdict = some true) ∧
    (outcome.isCancelled = true → 0 < s.accepted) := by
  obtain ⟨read, hverdict, houtcome⟩ : ∃ read, s.verdict = some read ∧
      outcome.isCancelled = read := by
    rcases hs.judged.1 outcome hsome with ⟨hfailed, -⟩ | ⟨-, read, state, hverdict, heq⟩
    · have hnone : s.child = none := hs.judged.2.2 hfailed
      rw [hnone] at hchild
      cases hchild
    · exact ⟨read, hverdict, by rw [heq, verdictOf, computeOutcome_isCancelled]⟩
  have hread : s.verdict.isSome := by rw [hverdict]; rfl
  obtain ⟨branch, hpc⟩ := hs.finished_of_verdict hread
  obtain ⟨life, hlife, hshape⟩ := hs.exited_of_verdict hread
  have hcount : (s.log.map Event.body).countP EventBody.isCancelled =
      (decide (branch = .cancelled)).toNat := by
    have hmerged := hs.merged.count
    rw [hpc] at hmerged
    rw [List.countP_map]
    exact hmerged
  refine ⟨⟨branch, hpc, ?_, ?_, ?_⟩, ?_, ?_⟩
  · rw [cancelledOnce_iff hshape hlife (hcount ▸ Bool.toNat_le _), hcount]
    simp
  · rw [hs.signalled.term, hpc]
    simp [WaitPc.termSent]
  · intro hbranch
    have htaken : s.wait.pc.cancelTaken = true := by rw [hpc, hbranch]; rfl
    have hheard := hs.signalled.read htaken
    rw [hverdict] at hheard
    rw [houtcome]
    simpa using hheard
  · rw [houtcome, hverdict]
    simp
  · intro hcancelled
    rw [houtcome] at hcancelled
    exact hs.tokened.accepted.mp (hs.tokened.read (hcancelled ▸ hverdict))

end Agreement

/-- The wait task takes its cancel branch and sends SIGTERM. -/
def takeCancel : List Label :=
  [.cancelCheck, .cancelToken, .wait .go {}, .wait .cancel {}, .wait .go {}, .wait .go {},
    .wait .go {}, .wait .go {}]

/-- A running job is cancelled, and its process dies of SIGTERM. -/
def cancelledRun : List Label :=
  drive 12 ++ takeCancel ++ [.exitLeader .term (.signaled 15), .wait .child {}, .wait .go {},
    .close .stdout .eof, .close .stderr .eof] ++ drive 18

theorem cancelledRun_runs :
    (Transition.run (Sys.step plainConfig) (Sys.init plainConfig) cancelledRun).isSome =
      true := by
  decide

def cancelledEnd : Sys := Transition.endOf _ _ cancelledRun cancelledRun_runs

theorem cancellation_agreement_running :
    (∃ branch, cancelledEnd.wait.pc = .finished branch ∧
      (CancelledOnce (cancelledEnd.log.map Event.body) ↔ branch = .cancelled) ∧
      (.term ∈ cancelledEnd.group.sent ↔ branch = .cancelled)) ∧
    cancelledEnd.verdict = some true ∧ 0 < cancelledEnd.accepted := by
  have houtcome : cancelledEnd.job.outcome = some (.cancelled []) := by decide
  obtain ⟨⟨branch, hpc, hevent, hsignal, -⟩, hread, haccepted⟩ :=
    cancellation_agreement (Transition.reachable_endOf _ _ cancelledRun_runs) (by decide)
      houtcome
  exact ⟨⟨branch, hpc, hevent, hsignal⟩, hread.mp rfl, haccepted rfl⟩

theorem afterExit_runs :
    (Transition.run (Sys.step plainConfig) (Sys.init plainConfig) (cancelAfter 0)).isSome =
      true := by
  decide

/-- The call comes when the process has ended by itself and the wait task has
reported it. -/
def afterExitEnd : Sys := Transition.endOf _ _ (cancelAfter 0) afterExit_runs

theorem cancelled_without_event :
    Sys.Reachable plainConfig afterExitEnd ∧ afterExitEnd.child.isSome ∧
      afterExitEnd.job.outcome = some (.cancelled []) ∧
      ¬ CancelledOnce (afterExitEnd.log.map Event.body) ∧
      .term ∉ afterExitEnd.group.sent := by
  refine ⟨Transition.reachable_endOf _ _ afterExit_runs, by decide, by decide, ?_, by decide⟩
  intro honce
  exact absurd honce.count_pos (by decide)

end Execra
