import Execra.Job.Agreement

/-!
What the wait task does to the descendants of the child. Both of its waits
watch the child alone, the leader of the group. When the leader is reaped in
the grace period the task is done, and a descendant that has ignored SIGTERM is
never sent SIGKILL; when the leader leaves before the deadline the timer is
gone, and a descendant may keep the job open for as long as it likes.
-/

namespace Execra

def WaitPc.inGrace : WaitPc → Bool
  | .grace _ => true
  | _ => false

/-- The group has been killed, unless the leader was reaped in the grace
period. -/
def WaitPc.tookDown : WaitPc → Bool
  | .reap _ => true
  | .deliver _ branch | .finished branch => branch ≠ .exited
  | _ => false

/-- A step in which no descendant is spared: the grace period ends early only
when every process of the group has exited. -/
def Sys.SparesNobody (s : Sys) : Label → Prop
  | .wait .child _ => s.wait.pc.inGrace = true → s.group.AllExited
  | _ => True

instance (s : Sys) (l : Label) : Decidable (s.SparesNobody l) := by
  unfold Sys.SparesNobody
  split <;> infer_instance

/-- Only the child's exit ends the grace period without SIGKILL. -/
theorem Sys.child_of_graceExit {cfg : Config} {w : Oracle} {s t : Sys} {c : WaitChoice}
    {deadline : Instant} {outcome : WaitOutcome} {branch : WaitBranch}
    (h : s.waitStep cfg w c = some t) (hpc : s.wait.pc = .grace deadline)
    (hpc' : t.wait.pc = .deliver outcome branch) : c = .child := by
  cases c with
  | child => rfl
  | go | cancel => simp [waitStep, hpc] at h
  | timer =>
      simp only [waitStep, hpc] at h
      split at h
      · cases h; cases hpc'
      · cases h

section Run

variable {cfg : Config} {s t : Sys} {ls : List Label}

/-- What the wait task has taken down is down. -/
def Sys.Down (s : Sys) : Prop := s.wait.pc.tookDown = true → s.group.TakenDown

theorem Sys.Down.aside (h : s.Down) (haside : s.Aside t) : t.Down := by
  rcases haside.pc with hpc | ⟨-, hpc⟩
  · unfold Down
    rw [hpc]
    intro htook
    rcases haside.group with hsame | hmove
    · rw [hsame]; exact h htook
    · exact (h htook).move hmove
  · unfold Down
    rw [hpc]
    exact Bool.noConfusion

theorem Sys.Down.wait {w : Oracle} {c : WaitChoice} (h : s.Down) (hs : Sys.Reachable cfg s)
    (hspares : s.SparesNobody (.wait c w)) (hstep : s.waitStep cfg w c = some t) : t.Down := by
  have hmove := Sys.waitStep_move hstep
  obtain ⟨pg, hpg⟩ := hs.procGroup hmove.spawned.1
  cases hmove with
  | kill branch hpc =>
      intro _
      simp only [waitAt, killChild, hpg]
      exact s.group.killpg_kill_takenDown
  | graceExit deadline status hpc hready =>
      have hchild := Sys.child_of_graceExit hstep hpc rfl
      subst hchild
      exact fun _ => (hspares (by rw [hpc]; rfl)).takenDown
  | reap branch status hpc hready => exact fun _ => h (by rw [hpc]; rfl)
  | deliver outcome branch hpc => exact fun htook => h (by rw [hpc]; exact htook)
  | _ => exact Bool.noConfusion

/-- In a run that spares nobody, the group is down when the wait task has
finished on its cancel branch. -/
theorem cancel_takes_down_group
    (hmeet : Transition.StepsMeet (Sys.step cfg) Sys.SparesNobody (Sys.init cfg) ls)
    (hrun : Transition.run (Sys.step cfg) (Sys.init cfg) ls = some s)
    (hpc : s.wait.pc = .finished .cancelled) : s.group.TakenDown := by
  refine Sys.run_invariant (I := Sys.Down) hmeet hrun Bool.noConfusion ?_ (by rw [hpc]; rfl)
  intro u l u' hu hu' hdown hspares hstep
  cases Sys.step_by hstep with
  | driver w h => exact hdown.aside ((Sys.driverStep_move h).aside hu hu')
  | wait c w h => exact hdown.wait hu hspares h
  | world _ h => exact hdown.aside h.aside

/-- After the deadline, with no call to cancel and no step left to take, the
wait task has killed the group, or it is done because the child was reaped
first. -/
theorem timeout_kills_or_leader_left (hs : Sys.Reachable cfg s)
    (helapsed : timerElapsed s.wait.startedAt cfg.spec.timeout s.instant = true)
    (htoken : s.token = false) (hquiet : ∀ c w, s.waitStep cfg w c = none) :
    .kill ∈ s.group.sent ∨ (s.wait.pc = .finished .exited ∧ s.group.waitStatus.isSome) := by
  have hsignalled := hs.signalled
  have huncancelled : s.wait.pc.cancelTaken = false := by
    cases htaken : s.wait.pc.cancelTaken with
    | false => rfl
    | true => rw [hsignalled.token htaken] at htoken; cases htoken
  cases hpc : s.wait.pc with
  | unspawned =>
      cases hs.tasked with
      | unspawned _ hinit => rw [hinit] at helapsed; cases helapsed
      | spawned _ _ _ _ hspawned => exact absurd hpc hspawned
  | select => simpa [Sys.waitStep, hpc, helapsed] using hquiet .timer {}
  | spawned | kill _ | deliver _ _ => simpa [Sys.waitStep, hpc] using hquiet .go {}
  | cancelStamp | cancelSend _ | cancelInsert _ | terminate | grace _ =>
      rw [hpc] at huncancelled
      cases huncancelled
  | reap branch => exact Or.inl (hsignalled.killed (by rw [hpc]; rfl))
  | finished branch =>
      cases branch with
      | exited => exact Or.inr ⟨rfl, hsignalled.reaped (by rw [hpc]; rfl)⟩
      | cancelled => rw [hpc] at huncancelled; cases huncancelled
      | timedOut => exact Or.inl (hsignalled.killed (by rw [hpc]; rfl))

end Run

/-- The child forks a process, the job is cancelled, and the child dies of
SIGTERM in the grace period. -/
def cancelForked (ignoresTerm : Bool) (between : List Label) : List Label :=
  drive 12 ++ [.fork 0 ignoresTerm] ++ takeCancel ++
    [.exitLeader .term (.signaled 15)] ++ between ++ [.wait .child {}, .wait .go {}]

/-- The forked process dies of SIGTERM as well. -/
def obedientRun : List Label := cancelForked false [.exitDescendant 0 .term]

theorem obedientRun_runs :
    (Transition.run (Sys.step plainConfig) (Sys.init plainConfig) obedientRun).isSome = true := by
  decide

def obedientEnd : Sys := Transition.endOf _ _ obedientRun obedientRun_runs

theorem cancel_takes_down_group_obedient :
    obedientEnd.group.descendants.length = 1 ∧ obedientEnd.group.TakenDown :=
  ⟨by decide, cancel_takes_down_group (by decide)
    (Transition.run_endOf (Sys.init plainConfig) obedientRun obedientRun_runs) rfl⟩

/-- The forked process ignores SIGTERM. -/
def defiantRun : List Label := cancelForked true []

theorem defiantRun_runs :
    (Transition.run (Sys.step plainConfig) (Sys.init plainConfig) defiantRun).isSome = true := by
  decide

def defiantEnd : Sys := Transition.endOf _ _ defiantRun defiantRun_runs

theorem cancel_spares_descendant :
    Sys.Reachable plainConfig defiantEnd ∧ defiantEnd.wait.pc = .finished .cancelled ∧
      ¬ defiantEnd.group.TakenDown :=
  ⟨Transition.reachable_endOf _ _ defiantRun_runs, rfl, by decide⟩

/-- A command with a timeout. -/
def timedConfig : Config :=
  { plainConfig with spec := { program := "tool", timeout := some 10 } }

/-- The deadline passes while the child is running. -/
def overdueRun : List Label :=
  drive 12 ++ [.wait .go {}, .elapse 10, .wait .timer {}, .wait .go {}]

theorem overdueRun_runs :
    (Transition.run (Sys.step timedConfig) (Sys.init timedConfig) overdueRun).isSome = true := by
  decide

def overdueEnd : Sys := Transition.endOf _ _ overdueRun overdueRun_runs

theorem timeout_kills_or_leader_left_overdue :
    .kill ∈ overdueEnd.group.sent ∨
      (overdueEnd.wait.pc = .finished .exited ∧ overdueEnd.group.waitStatus.isSome) :=
  timeout_kills_or_leader_left (Transition.reachable_endOf _ overdueRun overdueRun_runs)
    (by decide) (by decide) (fun c w => by cases c <;> rfl)

/-- The child forks a process, which keeps the pipes open, and leaves before
the deadline. -/
def orphanRun : List Label :=
  drive 12 ++ [.fork 0 false, .wait .go {}, .exitLeader .own (.exited 0), .wait .child {},
    .wait .go {}] ++ drive 5 ++ [.elapse 10]

theorem orphanRun_runs :
    (Transition.run (Sys.step timedConfig) (Sys.init timedConfig) orphanRun).isSome = true := by
  decide

def orphanEnd : Sys := Transition.endOf _ _ orphanRun orphanRun_runs

theorem timeout_outlived :
    Sys.Reachable timedConfig orphanEnd ∧
      timerElapsed orphanEnd.wait.startedAt timedConfig.spec.timeout orphanEnd.instant = true ∧
      orphanEnd.token = false ∧ orphanEnd.job.state = .exited ∧
      (∀ stream, (orphanEnd.pipe stream).fin = none) ∧
      (∀ c w, orphanEnd.waitStep timedConfig w c = none) ∧ orphanEnd.group.sent = [] :=
  ⟨Transition.reachable_endOf _ _ orphanRun_runs, by decide, by decide, by decide,
    fun stream => by cases stream <;> rfl, fun c w => by cases c <;> rfl, by decide⟩

end Execra
