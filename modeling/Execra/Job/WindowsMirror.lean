import Execra.Job.Deadlines
import Execra.Model.JobObject

/-!
A job on Windows is a job: it differs from one on Unix in when its child exits and in what
becomes of the processes that the child has started, and in nothing that is sent, shown or
stored.
-/

namespace Execra

/-- The same job with other processes. -/
def Sys.withGroup (s : Sys) (group : Group) : Sys := { s with group }

section Steps

variable {cfg : Config} {w : Oracle} {s : Sys} {v : LoopVars}

@[simp] theorem Sys.withGroup_group (group : Group) : (s.withGroup group).group = group := rfl

@[simp] theorem Sys.withGroup_ctl (group : Group) : (s.withGroup group).ctl = s.ctl := rfl

@[simp] theorem Sys.withGroup_wait (group : Group) : (s.withGroup group).wait = s.wait := rfl

@[simp] theorem Sys.withGroup_token (group : Group) : (s.withGroup group).token = s.token := rfl

@[simp] theorem Sys.withGroup_store (group : Group) : (s.withGroup group).store = s.store := rfl

@[simp] theorem Sys.withGroup_exitRx (group : Group) : (s.withGroup group).exitRx = s.exitRx := rfl

@[simp] theorem Sys.withGroup_stdout (group : Group) : (s.withGroup group).stdout = s.stdout := rfl

@[simp] theorem Sys.withGroup_stderr (group : Group) : (s.withGroup group).stderr = s.stderr := rfl

@[simp] theorem Sys.withGroup_child (group : Group) : (s.withGroup group).child = s.child := rfl

@[simp] theorem Sys.withGroup_instant (group : Group) :
    (s.withGroup group).instant = s.instant := rfl

@[simp] theorem Sys.withGroup_waitAt (group : Group) (pc : WaitPc) :
    (s.withGroup group).waitAt pc = (s.waitAt pc).withGroup group := rfl

theorem Sys.upsertSnapshot_withGroup (group : Group) :
    (s.withGroup group).upsertSnapshot w = (s.upsertSnapshot w).withGroup group := by
  simp only [upsertSnapshot, withGroup_store]
  cases s.store with
  | none => rfl
  | some store => cases w.upsertOk <;> rfl

theorem Sys.act_withGroup (group : Group) (o : Op) :
    (s.withGroup group).act cfg w o =
      ((s.act cfg w o).1, (s.act cfg w o).2.withGroup group) := by
  cases o with
  | spawnChild =>
      simp only [act]
      cases w.spawned <;> rfl
  | upsertSnapshot =>
      change ((), (s.withGroup group).upsertSnapshot w) = _
      rw [upsertSnapshot_withGroup]
      rfl
  | openRawFile =>
      simp only [act]
      cases w.rawOpens <;> rfl
  | writeRaw text =>
      cases hopen : s.rawOpen <;> simp [act, withGroup, hopen]
  | _ => rfl

theorem Sys.pollExit_withGroup (group : Group) :
    (s.withGroup group).pollExit cfg v = (s.pollExit cfg v).withGroup group := by
  simp only [pollExit, withGroup_exitRx]
  cases v.childExited with
  | true => rfl
  | false => cases s.exitRx <;> rfl

theorem Sys.pollStderr_withGroup (group : Group) :
    (s.withGroup group).pollStderr cfg v = (s.pollStderr cfg v).withGroup group := by
  simp only [pollStderr, withGroup_stderr]
  cases v.stderrDone with
  | true => exact pollExit_withGroup group
  | false =>
      obtain ⟨line, pipe⟩ := s.stderr.nextLine
      cases line with
      | some result => rfl
      | none => exact pollExit_withGroup (s := { s with stderr := pipe }) group

theorem Sys.pollStdout_withGroup (group : Group) :
    (s.withGroup group).pollStdout cfg v = (s.pollStdout cfg v).withGroup group := by
  simp only [pollStdout, withGroup_stdout]
  cases v.stdoutDone with
  | true => exact pollStderr_withGroup group
  | false =>
      obtain ⟨line, pipe⟩ := s.stdout.nextLine
      cases line with
      | some result => rfl
      | none => exact pollStderr_withGroup (s := { s with stdout := pipe }) group

/-- The driver takes no notice of the processes. -/
theorem Sys.driverStep_withGroup (group : Group) :
    (s.withGroup group).driverStep cfg w =
      (s.driverStep cfg w).map (fun t => t.withGroup group) := by
  simp only [driverStep, withGroup_ctl]
  cases s.ctl with
  | run p =>
      cases p with
      | op o k =>
          simp only [act_withGroup]
          rfl
      | ret next => rfl
  | top v =>
      by_cases hended : v.ended = true
      · simp only [hended, if_true]
        rfl
      · simp only [hended]
        exact congrArg some (pollStdout_withGroup group)
  | returned => rfl

/-- Whether the wait task acts on the child in its next step, or asks for its status. -/
def WaitPc.meetsChild (pc : WaitPc) : WaitChoice → Bool
  | .go =>
      match pc with
      | .terminate | .kill _ | .reap _ => true
      | _ => false
  | .child => true
  | .cancel | .timer => false

/-- It takes no notice of the processes in any other step. -/
theorem Sys.waitStep_withGroup (group : Group) {c : WaitChoice}
    (h : s.wait.pc.meetsChild c = false) :
    (s.withGroup group).waitStep cfg w c =
      (s.waitStep cfg w c).map (fun t => t.withGroup group) := by
  cases c with
  | child => cases h
  | go =>
      simp only [waitStep, withGroup_wait]
      cases hpc : s.wait.pc <;> rw [hpc] at h <;> first | rfl | cases h
  | cancel =>
      cases hpc : s.wait.pc with
      | select => cases htoken : s.token <;> simp [waitStep, hpc, htoken]
      | _ => simp [waitStep, hpc]
  | timer =>
      cases hpc : s.wait.pc with
      | select =>
          cases helapsed : timerElapsed s.wait.startedAt cfg.spec.timeout s.instant <;>
            simp [waitStep, hpc, helapsed]
      | grace deadline =>
          by_cases hover : deadline ≤ s.instant <;> simp [waitStep, hpc, hover]
      | _ => simp [waitStep, hpc]

theorem Sys.step_withGroup (group : Group) {l : Label} (h : l.isAside = true) :
    (s.withGroup group).step cfg l = (s.step cfg l).map (fun t => t.withGroup group) := by
  cases l with
  | cancelCheck =>
      by_cases hfinal : s.snapshot.state = .finalized <;> simp [step, withGroup, hfinal]
  | cancelToken => by_cases hcallers : s.callers = 0 <;> simp [step, withGroup, hcallers]
  | pollHandle =>
      cases hyields : s.handleYields <;> cases hrx : s.outcomeRx <;> cases hctl : s.ctl <;>
        simp [step, pollHandle, withGroup, hyields, hrx, hctl]
  | arrive stream bytes =>
      cases stream <;> cases hchild : s.child <;> simp [step, pipe, setPipe, hchild] <;>
        split <;> simp [withGroup]
  | close stream how =>
      cases stream <;> cases hchild : s.child <;> simp [step, pipe, setPipe, hchild] <;>
        split <;> simp [withGroup]
  | elapse d => rfl
  | _ => cases h

end Steps

/-! What one step does. -/

/-- What the processes do by themselves. -/
inductive JobTree.Stirs (t : JobTree) : JobTree → Prop where
  | exitLeader (code : Int32) (hrunning : t.leader.exited = false) :
      Stirs t { t with
        leader := { t.leader with exited := true }
        waitStatus := some (t.waitStatus.getD (.ok (.exited code))) }
  | exitDescendant (i p) (hp : t.descendants[i]? = some p) (hrunning : p.exited = false) :
      Stirs t { t with descendants := t.descendants.set i { p with exited := true } }
  | failWait (error) (hwaiting : t.waitStatus = none) :
      Stirs t { t with waitStatus := some (.error error) }
  | start (p) (hp : p ∈ t.members) (hrunning : p.exited = false)
      (hspared : p.terminated = false) :
      Stirs t { t with
        descendants := t.descendants ++ [{ attached := p.attached }]
        startedEarly := t.startedEarly || t.assign ≠ .returned }

section Stirs

variable {t t' : JobTree}

theorem JobTree.exit_stirs {i : ℕ} {code : Int32} (h : t.exit i code = some t') :
    t.Stirs t' := by
  cases i with
  | zero =>
      simp only [exit] at h
      split at h
      · cases h
      · next hrunning =>
          cases h
          exact .exitLeader code (Bool.eq_false_iff.mpr hrunning)
  | succ i =>
      simp only [exit] at h
      split at h
      · next p hp =>
          split at h
          · cases h
          · next hrunning =>
              cases h
              exact .exitDescendant i p hp (Bool.eq_false_iff.mpr hrunning)
      · cases h

theorem JobTree.failWait_stirs {error : IoError} (h : t.failWait error = some t') :
    t.Stirs t' := by
  unfold failWait at h
  split at h
  · next hwaiting =>
      cases h
      exact .failWait error (Option.isNone_iff_eq_none.mp hwaiting)
  · cases h

theorem JobTree.start_stirs {i : ℕ} (h : t.start i = some t') : t.Stirs t' := by
  unfold start at h
  split at h
  · next p hp =>
      split at h
      · cases h
      · next hguard =>
          cases h
          simp only [Bool.or_eq_true, not_or, Bool.not_eq_true] at hguard
          exact .start p (List.mem_of_getElem? hp) hguard.1 hguard.2
  · cases h

end Stirs

/-- The steps of a job on Windows. -/
inductive WindowsSys.Move (cfg : Config) (s : WindowsSys) : WindowsSys → Prop where
  | launch (w sys) (hassign : s.tree.assign = .uncalled)
      (hstep : s.sys.driverStep cfg w = some sys) (hchild : sys.child.isSome) :
      Move cfg s { sys, tree := { s.tree with assign := .createJobObject } }
  | driver (w sys) (hstep : s.sys.driverStep cfg w = some sys)
      (hassign : s.tree.assign = .uncalled ∧ sys.child = none ∨ s.tree.assign = .returned) :
      Move cfg s { s with sys }
  | assign (ok tree) (hstep : s.tree.assignStep ok = some tree) : Move cfg s { s with tree }
  | wait (c w sys) (hmeets : s.sys.wait.pc.meetsChild c = false)
      (hstep : s.sys.waitStep cfg w c = some sys) : Move cfg s { s with sys }
  | terminate (hpc : s.sys.wait.pc = .terminate) :
      Move cfg s
        { sys := s.sys.waitAt (.grace (s.sys.instant + cfg.runtime.defaultGracePeriod))
          tree := s.tree.killChild }
  | kill (branch) (hpc : s.sys.wait.pc = .kill branch) :
      Move cfg s { sys := s.sys.waitAt (.reap branch), tree := s.tree.killChild }
  | childExited (status) (hpc : s.sys.wait.pc = .select)
      (hready : s.tree.waitStatus = some status) :
      Move cfg s
        { s with sys := s.sys.waitAt (.deliver { status, timedOut := false } .exited) }
  | graceExit (deadline status) (hpc : s.sys.wait.pc = .grace deadline)
      (hready : s.tree.waitStatus = some status) :
      Move cfg s
        { s with sys := s.sys.waitAt (.deliver { status, timedOut := false } .cancelled) }
  | reap (branch status) (hpc : s.sys.wait.pc = .reap branch)
      (hready : s.tree.waitStatus = some status) :
      Move cfg s
        { s with
          sys := s.sys.waitAt (.deliver { status, timedOut := branch = .timedOut } branch) }
  | drop (branch) (hpc : s.sys.wait.pc = .finished branch) (hfirst : s.tree.dropped = false) :
      Move cfg s { s with tree := s.tree.dropAll }
  | aside (l sys) (haside : l.isAside = true) (hstep : s.sys.step cfg l = some sys) :
      Move cfg s { s with sys }
  | stirs (tree) (hchild : s.sys.child.isSome) (h : s.tree.Stirs tree) :
      Move cfg s { s with tree }

section Move

variable {cfg : Config} {w : Oracle} {s t : WindowsSys}

theorem WindowsSys.driverStep_move (h : s.driverStep cfg w = some t) : s.Move cfg t := by
  unfold driverStep at h
  split at h
  · next hassign =>
      obtain ⟨sys, hstep, rfl⟩ := Option.map_eq_some_iff.mp h
      cases hchild : sys.child with
      | none => exact .driver w sys hstep (Or.inl ⟨hassign, hchild⟩)
      | some pid =>
          have hsome : sys.child.isSome = true := by rw [hchild]; rfl
          exact .launch w sys hassign hstep hsome
  · next hassign =>
      obtain ⟨sys, hstep, rfl⟩ := Option.map_eq_some_iff.mp h
      exact .driver w sys hstep (Or.inr hassign)
  · cases h

theorem WindowsSys.waitStep_move {c : WaitChoice} (h : s.waitStep cfg w c = some t) :
    s.Move cfg t := by
  cases c with
  | go =>
      simp only [waitStep] at h
      split at h
      · next hpc => cases h; exact .terminate hpc
      · next branch hpc => cases h; exact .kill branch hpc
      · next branch hpc =>
          obtain ⟨status, hready, rfl⟩ := Option.map_eq_some_iff.mp h
          exact .reap branch status hpc hready
      · next branch hpc =>
          split at h
          · cases h
          · next hfirst => cases h; exact .drop branch hpc (Bool.eq_false_iff.mpr hfirst)
      · next hterminate hkill hreap _ =>
          obtain ⟨sys, hstep, rfl⟩ := Option.map_eq_some_iff.mp h
          refine .wait .go w sys ?_ hstep
          cases hpc : s.sys.wait.pc with
          | terminate => exact absurd hpc hterminate
          | kill branch => exact absurd hpc (hkill branch)
          | reap branch => exact absurd hpc (hreap branch)
          | _ => rfl
  | child =>
      simp only [waitStep] at h
      split at h
      · next hpc =>
          obtain ⟨status, hready, rfl⟩ := Option.map_eq_some_iff.mp h
          exact .childExited status hpc hready
      · next deadline hpc =>
          obtain ⟨status, hready, rfl⟩ := Option.map_eq_some_iff.mp h
          exact .graceExit deadline status hpc hready
      · cases h
  | cancel | timer =>
      obtain ⟨sys, hstep, rfl⟩ := Option.map_eq_some_iff.mp h
      exact .wait _ w sys rfl hstep

private theorem stirs_move {r : Option JobTree}
    (hstirs : ∀ tree, r = some tree → s.tree.Stirs tree)
    (h : (if s.sys.child.isSome then r.map (fun tree => { s with tree }) else none) = some t) :
    s.Move cfg t := by
  split at h
  · next hchild =>
      obtain ⟨tree, htree, rfl⟩ := Option.map_eq_some_iff.mp h
      exact .stirs tree hchild (hstirs tree htree)
  · cases h

theorem WindowsSys.step_move {l : WindowsLabel} (h : s.step cfg l = some t) :
    s.Move cfg t := by
  cases l with
  | driver w => exact driverStep_move h
  | wait c w => exact waitStep_move h
  | assign ok =>
      obtain ⟨tree, hstep, rfl⟩ := Option.map_eq_some_iff.mp h
      exact .assign ok tree hstep
  | aside l =>
      simp only [step] at h
      split at h
      · next haside =>
          obtain ⟨sys, hstep, rfl⟩ := Option.map_eq_some_iff.mp h
          exact .aside l sys haside hstep
      · cases h
  | exit i code => exact stirs_move (fun _ => JobTree.exit_stirs) h
  | failWait error => exact stirs_move (fun _ => JobTree.failWait_stirs) h
  | start i => exact stirs_move (fun _ => JobTree.start_stirs) h

end Move

/-! The job on Unix that a job on Windows looks like. -/

/-- On Unix its child has the same status. -/
def WindowsSys.Mirrored (cfg : Config) (s : WindowsSys) : Prop :=
  ∃ group : Group, Sys.Reachable cfg (s.sys.withGroup group) ∧
    group.waitStatus = s.tree.waitStatus

section Mirrored

variable {cfg : Config} {s t : WindowsSys} {g : Group}

theorem JobTree.closeHandle_waitStatus (t : JobTree) :
    t.closeHandle.waitStatus = t.waitStatus := by
  unfold closeHandle
  split <;> rfl

theorem JobTree.killChild_waitStatus (t : JobTree) :
    t.killChild.waitStatus = t.waitStatus := by
  unfold killChild
  split <;> rfl

theorem JobTree.dropGroup_waitStatus (t : JobTree) :
    t.dropGroup.waitStatus = t.waitStatus := by
  unfold dropGroup
  split
  · exact t.closeHandle_waitStatus
  · rfl

theorem JobTree.dropAll_waitStatus (t : JobTree) : t.dropAll.waitStatus = t.waitStatus := by
  change t.dropGroup.dropChild.waitStatus = t.waitStatus
  rw [← t.dropGroup_waitStatus]
  unfold dropChild
  split <;> rfl

theorem JobTree.assignStep_waitStatus {t t' : JobTree} {ok : Bool}
    (h : t.assignStep ok = some t') : t'.waitStatus = t.waitStatus := by
  unfold assignStep at h
  cases hassign : t.assign <;> rw [hassign] at h <;> cases ok <;> cases h <;>
    first | rfl | exact t.closeHandle_waitStatus

theorem terminateChild_waitStatus (g : Group) (procGroup : Option ProcessGroup) :
    (terminateChild g procGroup).waitStatus = g.waitStatus := by
  cases procGroup <;> rfl

theorem killChild_waitStatus (g : Group) (procGroup : Option ProcessGroup) :
    (killChild g procGroup).waitStatus = g.waitStatus := by
  cases procGroup <;> rfl

/-- What the processes do by themselves is seen on Unix if `child.wait()` becomes ready. -/
theorem WindowsSys.Mirrored.stirs {tree : JobTree} (h : s.Mirrored cfg)
    (hchild : s.sys.child.isSome) (hstirs : s.tree.Stirs tree) :
    WindowsSys.Mirrored cfg { s with tree } := by
  obtain ⟨g, hreach, hstatus⟩ := h
  cases hstirs with
  | exitLeader code hrunning =>
      cases hknown : s.tree.waitStatus with
      | some status =>
          refine ⟨g, hreach, hstatus.trans ?_⟩
          rw [hknown]
          rfl
      | none =>
          have hnone : g.waitStatus = none := hstatus.trans hknown
          have hruns : g.leader.exited = false := by
            rw [Bool.eq_false_iff]
            intro hexited
            have hwaited : g.waitStatus.isSome := hreach.armed.waited hexited
            rw [hnone] at hwaited
            cases hwaited
          have hunix : (s.sys.withGroup g).step cfg (.exitLeader .own (.exited code)) =
              some (s.sys.withGroup { g with
                leader := { g.leader with exited := true }
                waitStatus := some (.ok (.exited code)) }) := by
            simp [Sys.step, Sys.withGroup, hchild, Group.exitLeader, Process.canExit, hruns,
              hnone]
          refine ⟨_, hreach.extend hunix, ?_⟩
          simp only [Option.getD_none]
  | failWait error hwaiting =>
      have hnone : g.waitStatus = none := hstatus.trans hwaiting
      have hunix : (s.sys.withGroup g).step cfg (.failWait error) =
          some (s.sys.withGroup { g with waitStatus := some (.error error) }) := by
        simp [Sys.step, Sys.withGroup, hchild, Group.failWait, hnone]
      exact ⟨_, hreach.extend hunix, rfl⟩
  | exitDescendant | start => exact ⟨g, hreach, hstatus⟩

/-- On Unix the same step is taken, or none. -/
theorem WindowsSys.Mirrored.step (h : s.Mirrored cfg) (hmove : s.Move cfg t) :
    t.Mirrored cfg := by
  have hmirrored := h
  obtain ⟨g, hreach, hstatus⟩ := h
  have hdriver : ∀ {w : Oracle} {sys : Sys}, s.sys.driverStep cfg w = some sys →
      Sys.Reachable cfg (sys.withGroup g) := by
    intro w sys hstep
    refine hreach.extend (l := .driver w) ?_
    simp only [Sys.step, Sys.driverStep_withGroup, hstep, Option.map_some]
  have hwait : ∀ {c : WaitChoice} {killed : Group} {pc : WaitPc},
      (s.sys.withGroup g).waitStep cfg {} c = some ((s.sys.waitAt pc).withGroup killed) →
      Sys.Reachable cfg ((s.sys.waitAt pc).withGroup killed) := by
    intro c killed pc hstep
    exact hreach.extend (l := .wait c {}) hstep
  cases hmove with
  | launch w sys hassign hstep hchild => exact ⟨g, hdriver hstep, hstatus⟩
  | driver w sys hstep hassign => exact ⟨g, hdriver hstep, hstatus⟩
  | assign ok tree hstep =>
      exact ⟨g, hreach, hstatus.trans (JobTree.assignStep_waitStatus hstep).symm⟩
  | wait c w sys hmeets hstep =>
      have hunix : (s.sys.withGroup g).step cfg (.wait c w) = some (sys.withGroup g) := by
        simp only [Sys.step, Sys.waitStep_withGroup g hmeets, hstep, Option.map_some]
      exact ⟨g, hreach.extend hunix, hstatus⟩
  | terminate hpc =>
      refine ⟨terminateChild g s.sys.wait.procGroup, hwait (c := .go) ?_, ?_⟩
      · simp only [Sys.waitStep, Sys.withGroup_wait, hpc]
        rfl
      · exact (terminateChild_waitStatus g _).trans
          (hstatus.trans s.tree.killChild_waitStatus.symm)
  | kill branch hpc =>
      refine ⟨killChild g s.sys.wait.procGroup, hwait (c := .go) ?_, ?_⟩
      · simp only [Sys.waitStep, Sys.withGroup_wait, hpc]
        rfl
      · exact (killChild_waitStatus g _).trans
          (hstatus.trans s.tree.killChild_waitStatus.symm)
  | childExited status hpc hready =>
      refine ⟨g, hwait (c := .child) ?_, hstatus⟩
      simp only [Sys.waitStep, Sys.withGroup_wait, hpc, Sys.withGroup_group, hstatus, hready,
        Option.map_some, Sys.withGroup_waitAt]
  | graceExit deadline status hpc hready =>
      refine ⟨g, hwait (c := .child) ?_, hstatus⟩
      simp only [Sys.waitStep, Sys.withGroup_wait, hpc, Sys.withGroup_group, hstatus, hready,
        Option.map_some, Sys.withGroup_waitAt]
  | reap branch status hpc hready =>
      refine ⟨g, hwait (c := .go) ?_, hstatus⟩
      simp only [Sys.waitStep, Sys.withGroup_wait, hpc, Sys.withGroup_group, hstatus, hready,
        Option.map_some, Sys.withGroup_waitAt]
  | drop branch hpc hfirst =>
      exact ⟨g, hreach, hstatus.trans s.tree.dropAll_waitStatus.symm⟩
  | aside l sys haside hstep =>
      have hunix : (s.sys.withGroup g).step cfg l = some (sys.withGroup g) := by
        rw [Sys.step_withGroup g haside, hstep, Option.map_some]
      exact ⟨g, hreach.extend hunix, hstatus⟩
  | stirs tree hchild h => exact hmirrored.stirs hchild h

theorem WindowsSys.mirrored_of_reachable
    (hs : Transition.Reachable (WindowsSys.step cfg) (WindowsSys.init cfg) s) :
    s.Mirrored cfg := by
  apply hs.invariant
  · exact ⟨{}, Transition.Reachable.refl _, rfl⟩
  · intro s l t h hstep
    exact h.step (WindowsSys.step_move hstep)

end Mirrored

/-- Nothing that a job on Windows sends, shows, stores or answers tells it from a job on
Unix: to each state that it reaches there is one reached on Unix which differs from it in
the processes alone, and in which the child has exited with the same status. The model of
Unix lets a process leave with any `i32`, where a kernel gives no code above 255. -/
theorem windows_job_mirrors {cfg : Config} {ls : List WindowsLabel} {s : WindowsSys}
    (hrun : Transition.run (WindowsSys.step cfg) (WindowsSys.init cfg) ls = some s) :
    ∃ group : Group, Sys.Reachable cfg { s.sys with group } ∧
      group.waitStatus = s.tree.waitStatus :=
  WindowsSys.mirrored_of_reachable ⟨ls, hrun⟩

/-- The child is attached, starts a process, closes its pipes and leaves with code 3; the
wait task reports that and drops what it has. -/
def attachedRun : List WindowsLabel :=
  List.replicate 5 (.driver {}) ++ List.replicate 4 (.assign true) ++ [.start 0] ++
    List.replicate 7 (.driver {}) ++
    [.aside (.close .stdout .eof), .aside (.close .stderr .eof), .exit 0 3, .wait .go {},
      .wait .child {}, .wait .go {}, .wait .go {}]

theorem attached_runs : (Transition.run (WindowsSys.step plainConfig)
    (WindowsSys.init plainConfig) attachedRun).isSome = true := by
  decide +kernel

def attachedEnd : WindowsSys := Transition.endOf (WindowsSys.step plainConfig)
  (WindowsSys.init plainConfig) attachedRun attached_runs

theorem windows_job_mirrors_attached : ∃ group : Group,
    Sys.Reachable plainConfig { attachedEnd.sys with group } ∧
    group.waitStatus = some (.ok (.exited 3)) := by
  obtain ⟨group, hreach, hstatus⟩ :=
    windows_job_mirrors (Transition.run_endOf _ attachedRun attached_runs)
  exact ⟨group, hreach, hstatus.trans (by decide +kernel)⟩

end Execra
