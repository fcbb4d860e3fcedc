import Execra.Model.Machine

/-!
What a step of a job can do, said once. `Sys.waitStep` and `Sys.driverStep`
are executable; a proof about a step goes by the cases of `Sys.WaitMove` and
`Sys.DriverMove`, which name every transition together with its guard and its
result, and never unfolds the step functions. `Sys.Move` adds the steps of the
callers, the handle, the child and the clock.
-/

namespace Execra

/-- The transitions of the wait task. -/
inductive Sys.WaitMove (cfg : Config) (s : Sys) : Sys → Prop where
  | start (hpc : s.wait.pc = .spawned) :
      WaitMove cfg s
        { s with wait := { s.wait with pc := .select, startedAt := some s.instant } }
  | childExited (status) (hpc : s.wait.pc = .select)
      (hready : s.group.waitStatus = some status) :
      WaitMove cfg s (s.waitAt (.deliver { status, timedOut := false } .exited))
  | cancelled (hpc : s.wait.pc = .select) (hready : s.token = true) :
      WaitMove cfg s (s.waitAt .cancelStamp)
  | timedOut (hpc : s.wait.pc = .select)
      (hready : timerElapsed s.wait.startedAt cfg.spec.timeout s.instant = true) :
      WaitMove cfg s (s.waitAt (.kill .timedOut))
  | stamp (time) (hpc : s.wait.pc = .cancelStamp) :
      WaitMove cfg s (s.waitAt (.cancelSend time))
  | send (time) (hpc : s.wait.pc = .cancelSend time) :
      WaitMove cfg s ((s.send (cancelledEvent cfg time)).waitAt (.cancelInsert time))
  | insert (time) (w : Oracle) (hpc : s.wait.pc = .cancelInsert time) :
      WaitMove cfg s ((s.insertEvent (cancelledEvent cfg time) w).waitAt .terminate)
  | terminate (hpc : s.wait.pc = .terminate) :
      WaitMove cfg s
        ({ s with group := terminateChild s.group s.wait.procGroup }.waitAt
          (.grace (s.instant + cfg.runtime.defaultGracePeriod)))
  | graceExit (deadline status) (hpc : s.wait.pc = .grace deadline)
      (hready : s.group.waitStatus = some status) :
      WaitMove cfg s (s.waitAt (.deliver { status, timedOut := false } .cancelled))
  | graceOver (deadline) (hpc : s.wait.pc = .grace deadline)
      (hready : deadline ≤ s.instant) :
      WaitMove cfg s (s.waitAt (.kill .cancelled))
  | kill (branch) (hpc : s.wait.pc = .kill branch) :
      WaitMove cfg s
        ({ s with group := killChild s.group s.wait.procGroup }.waitAt (.reap branch))
  | reap (branch status) (hpc : s.wait.pc = .reap branch)
      (hready : s.group.waitStatus = some status) :
      WaitMove cfg s
        (s.waitAt (.deliver { status, timedOut := branch = .timedOut } branch))
  | deliver (outcome branch) (hpc : s.wait.pc = .deliver outcome branch) :
      WaitMove cfg s ({ s with exitRx := .sent outcome }.waitAt (.finished branch))

theorem Sys.waitStep_move {cfg : Config} {w : Oracle} {s t : Sys} {c : WaitChoice}
    (h : s.waitStep cfg w c = some t) : s.WaitMove cfg t := by
  cases c with
  | go =>
      simp only [Sys.waitStep] at h
      split at h
      · next hpc => cases h; exact .start hpc
      · next hpc => cases h; exact .stamp _ hpc
      · next time hpc => cases h; exact .send time hpc
      · next time hpc => cases h; exact .insert time w hpc
      · next hpc => cases h; exact .terminate hpc
      · next branch hpc => cases h; exact .kill branch hpc
      · next branch hpc =>
          obtain ⟨status, hready, rfl⟩ := Option.map_eq_some_iff.mp h
          exact .reap branch status hpc hready
      · next outcome branch hpc => cases h; exact .deliver outcome branch hpc
      · cases h
  | child =>
      simp only [Sys.waitStep] at h
      split at h
      · next hpc =>
          obtain ⟨status, hready, rfl⟩ := Option.map_eq_some_iff.mp h
          exact .childExited status hpc hready
      · next deadline hpc =>
          obtain ⟨status, hready, rfl⟩ := Option.map_eq_some_iff.mp h
          exact .graceExit deadline status hpc hready
      · cases h
  | cancel =>
      simp only [Sys.waitStep] at h
      split at h
      · next hpc =>
          split at h
          · next hready => cases h; exact .cancelled hpc hready
          · cases h
      · cases h
  | timer =>
      simp only [Sys.waitStep] at h
      split at h
      · next hpc =>
          split at h
          · next hready => cases h; exact .timedOut hpc hready
          · cases h
      · next deadline hpc =>
          split at h
          · next hready => cases h; exact .graceOver deadline hpc hready
          · cases h
      · cases h

/-- A stream's branch of the select loop is disabled, or its future is pending. -/
def Pipe.Waits (p : Pipe) (done : Bool) : Prop := done = true ∨ p.nextLine.1 = none

/-- The pipe after its branch was polled without completing. -/
def Pipe.polled (p : Pipe) (done : Bool) : Pipe := if done then p else p.nextLine.2

/-- The transitions of the driver. -/
inductive Sys.DriverMove (cfg : Config) (s : Sys) : Sys → Prop where
  | op (w : Oracle) (o : Op) (k : o.Ans → Driver Next) (hctl : s.ctl = .run (.op o k)) :
      DriverMove cfg s
        { (s.act cfg w o).2 with ctl := settle (k (s.act cfg w o).1) }
  | leave (v) (hctl : s.ctl = .top v) (hended : v.ended = true) :
      DriverMove cfg s { s with ctl := settle (exitLoop cfg v) }
  | pending (v) (hctl : s.ctl = .top v) (hended : v.ended = false)
      (hout : s.stdout.Waits v.stdoutDone) (herr : s.stderr.Waits v.stderrDone) :
      DriverMove cfg s
        { s with
          stdout := s.stdout.polled v.stdoutDone
          stderr := s.stderr.polled v.stderrDone }
  | stdout (v result) (hctl : s.ctl = .top v) (hended : v.ended = false)
      (hdone : v.stdoutDone = false) (hready : s.stdout.nextLine.1 = some result) :
      DriverMove cfg s
        ({ s with stdout := s.stdout.nextLine.2 }.selectDone cfg v (.line .stdout result))
  | stderr (v result) (hctl : s.ctl = .top v) (hended : v.ended = false)
      (hdone : v.stderrDone = false) (hout : s.stdout.Waits v.stdoutDone)
      (hready : s.stderr.nextLine.1 = some result) :
      DriverMove cfg s
        ({ s with
            stdout := s.stdout.polled v.stdoutDone
            stderr := s.stderr.nextLine.2 }.selectDone cfg v (.line .stderr result))
  | exit (v outcome) (hctl : s.ctl = .top v) (hended : v.ended = false)
      (hdone : v.childExited = false) (hout : s.stdout.Waits v.stdoutDone)
      (herr : s.stderr.Waits v.stderrDone) (hready : s.exitRx = .sent outcome) :
      DriverMove cfg s
        ({ s with
            stdout := s.stdout.polled v.stdoutDone
            stderr := s.stderr.polled v.stderrDone
            exitRx := .taken outcome }.selectDone cfg v (.exit (some outcome)))

private theorem pollExit_move (cfg : Config) {s : Sys} {v : LoopVars}
    (hctl : s.ctl = .top v) (hended : v.ended = false)
    (hout : s.stdout.Waits v.stdoutDone) (herr : s.stderr.Waits v.stderrDone) :
    s.DriverMove cfg
      ({ s with
          stdout := s.stdout.polled v.stdoutDone
          stderr := s.stderr.polled v.stderrDone }.pollExit cfg v) := by
  unfold Sys.pollExit
  split
  · exact .pending v hctl hended hout herr
  · next hdone =>
      split
      · next outcome hready =>
          exact .exit v outcome hctl hended (by simpa using hdone) hout herr hready
      · exact .pending v hctl hended hout herr

private theorem pollStderr_move (cfg : Config) {s : Sys} {v : LoopVars}
    (hctl : s.ctl = .top v) (hended : v.ended = false)
    (hout : s.stdout.Waits v.stdoutDone) :
    s.DriverMove cfg
      ({ s with stdout := s.stdout.polled v.stdoutDone }.pollStderr cfg v) := by
  unfold Sys.pollStderr
  split
  · next hdone =>
      have hmove := pollExit_move cfg hctl hended hout (Or.inl hdone)
      simpa [Pipe.polled, hdone] using hmove
  · next hdone =>
      have hdone' : v.stderrDone = false := by simpa using hdone
      simp only
      split
      · next result hready => exact .stderr v result hctl hended hdone' hout hready
      · next hready =>
          have hmove := pollExit_move cfg hctl hended hout (Or.inr hready)
          simpa [Pipe.polled, hdone'] using hmove

private theorem pollStdout_move {cfg : Config} {s : Sys} {v : LoopVars}
    (hctl : s.ctl = .top v) (hended : v.ended = false) :
    s.DriverMove cfg (s.pollStdout cfg v) := by
  unfold Sys.pollStdout
  split
  · next hdone =>
      have hmove := pollStderr_move cfg hctl hended (Or.inl hdone)
      simpa [Pipe.polled, hdone] using hmove
  · next hdone =>
      have hdone' : v.stdoutDone = false := by simpa using hdone
      simp only
      split
      · next result hready => exact .stdout v result hctl hended hdone' hready
      · next hready =>
          have hmove := pollStderr_move cfg hctl hended (Or.inr hready)
          simpa [Pipe.polled, hdone'] using hmove

theorem Sys.driverStep_move {cfg : Config} {w : Oracle} {s t : Sys}
    (h : s.driverStep cfg w = some t) : s.DriverMove cfg t := by
  unfold Sys.driverStep at h
  split at h
  · next o k hctl => cases h; exact .op w o k hctl
  · cases h
  · next v hctl =>
      split at h
      · next hended => cases h; exact .leave v hctl hended
      · next hended => cases h; exact pollStdout_move hctl (by simpa using hended)
  · cases h

/-- A step of the driver with the answers the label gives it. -/
theorem Sys.driverStep_cases {cfg : Config} {w : Oracle} {s t : Sys}
    (h : s.driverStep cfg w = some t) :
    (∃ o k, s.ctl = .run (.op o k) ∧
      t = { (s.act cfg w o).2 with ctl := settle (k (s.act cfg w o).1) }) ∨
    ∃ v, s.ctl = .top v ∧ s.DriverMove cfg t := by
  have hmove := Sys.driverStep_move h
  unfold Sys.driverStep at h
  split at h
  · next o k hctl => cases h; exact Or.inl ⟨o, k, hctl, rfl⟩
  · cases h
  · next v hctl => exact Or.inr ⟨v, hctl, hmove⟩
  · cases h

def Label.touchesGroup : Label → Bool
  | .exitLeader _ _ | .failWait _ | .exitDescendant _ _ | .fork _ _ => true
  | _ => false

/-- The steps of everybody else: the callers, the handle, the child and the
clock. -/
inductive Sys.WorldMove (s : Sys) : Label → Sys → Prop where
  | cancelIgnored (h : s.snapshot.state = .finalized) : WorldMove s .cancelCheck s
  | cancelCheck (h : s.snapshot.state ≠ .finalized) :
      WorldMove s .cancelCheck { s with callers := s.callers + 1 }
  | cancelToken (h : s.callers ≠ 0) :
      WorldMove s .cancelToken
        { s with token := true, callers := s.callers - 1, accepted := s.accepted + 1 }
  | handlePending : WorldMove s .pollHandle s
  | handleAnswered (outcome) (hrx : s.outcomeRx = .sent outcome) :
      WorldMove s .pollHandle
        { s with outcomeRx := .taken outcome, handleYields := some outcome }
  | handleOrphaned (hctl : s.ctl = .returned) (hrx : s.outcomeRx = .empty) :
      WorldMove s .pollHandle { s with handleYields := some (.cancelled []) }
  | arrive (stream bytes) (hchild : s.child.isSome) (hfin : (s.pipe stream).fin = none) :
      WorldMove s (.arrive stream bytes) (s.setPipe stream ((s.pipe stream).arrive bytes))
  | close (stream how) (hchild : s.child.isSome) (hfin : (s.pipe stream).fin = none) :
      WorldMove s (.close stream how) (s.setPipe stream ((s.pipe stream).close how))
  | group (l g) (hl : l.touchesGroup = true) (hchild : s.child.isSome)
      (h : s.group.Move g) : WorldMove s l { s with group := g }
  | elapse (d) : WorldMove s (.elapse d) { s with instant := s.instant + d }

/-- The two tasks of a job, what they have done and what was recorded of it. -/
structure Sys.TasksKept (s t : Sys) : Prop where
  ctl : t.ctl = s.ctl
  wait : t.wait = s.wait
  log : t.log = s.log
  sent : t.sent = s.sent
  store : t.store = s.store
  child : t.child = s.child
  waitTasks : t.waitTasks = s.waitTasks
  exitRx : t.exitRx = s.exitRx
  selected : t.selected = s.selected

/-- Nobody else touches them. -/
theorem Sys.WorldMove.tasks {s t : Sys} {l : Label} (h : s.WorldMove l t) : s.TasksKept t := by
  cases h with
  | arrive stream bytes | close stream how => cases stream <;> constructor <;> rfl
  | _ => constructor <;> rfl

theorem Sys.pollHandle_move (s : Sys) : s.WorldMove .pollHandle s.pollHandle := by
  unfold Sys.pollHandle
  split
  · next outcome _ hrx => exact .handleAnswered outcome hrx
  · next _ hrx hctl => exact .handleOrphaned hctl hrx
  · exact .handlePending

private theorem group_move {s t : Sys} {l : Label} {r : Option Group}
    (hl : l.touchesGroup = true) (hmove : ∀ g, r = some g → s.group.Move g)
    (h : (if s.child.isSome then r.map (fun group => { s with group }) else none) = some t) :
    s.WorldMove l t := by
  split at h
  · next hchild =>
      obtain ⟨g, hg, rfl⟩ := Option.map_eq_some_iff.mp h
      exact .group l g hl hchild (hmove g hg)
  · cases h

/-- A step, by whose it is. -/
inductive Sys.StepBy (cfg : Config) (s : Sys) : Label → Sys → Prop where
  | driver (w : Oracle) {t} (h : s.driverStep cfg w = some t) : StepBy cfg s (.driver w) t
  | wait (c : WaitChoice) (w : Oracle) {t} (h : s.waitStep cfg w c = some t) :
      StepBy cfg s (.wait c w) t
  | world (l) {t} (h : s.WorldMove l t) : StepBy cfg s l t

theorem Sys.step_by {cfg : Config} {s t : Sys} {l : Label}
    (h : s.step cfg l = some t) : s.StepBy cfg l t := by
  cases l with
  | driver w => exact .driver w h
  | wait c w => exact .wait c w h
  | cancelCheck =>
      simp only [Sys.step] at h
      split at h
      · next hfin => cases h; exact .world _ (.cancelIgnored hfin)
      · next hfin => cases h; exact .world _ (.cancelCheck hfin)
  | cancelToken =>
      simp only [Sys.step] at h
      split at h
      · cases h
      · next hcallers => cases h; exact .world _ (.cancelToken hcallers)
  | pollHandle => cases h; exact .world _ s.pollHandle_move
  | arrive stream bytes =>
      simp only [Sys.step] at h
      split at h
      · cases h
      · next hopen =>
          cases h
          simp only [Bool.or_eq_true, not_or] at hopen
          exact .world _ (.arrive stream bytes
            (Option.isSome_iff_ne_none.mpr (by simpa using hopen.1)) (by simpa using hopen.2))
  | close stream how =>
      simp only [Sys.step] at h
      split at h
      · cases h
      · next hopen =>
          cases h
          simp only [Bool.or_eq_true, not_or] at hopen
          exact .world _ (.close stream how
            (Option.isSome_iff_ne_none.mpr (by simpa using hopen.1)) (by simpa using hopen.2))
  | exitLeader cause status =>
      exact .world _ (group_move rfl (fun _ => Group.exitLeader_move) h)
  | failWait error => exact .world _ (group_move rfl (fun _ => Group.failWait_move) h)
  | exitDescendant i cause =>
      exact .world _ (group_move rfl (fun _ => Group.exitDescendant_move) h)
  | fork parent ignores => exact .world _ (group_move rfl (fun _ => Group.fork_move) h)
  | elapse d => cases h; exact .world _ (.elapse d)

/-- The transitions of the whole job. -/
inductive Sys.Move (cfg : Config) (s t : Sys) : Prop where
  | driver (h : s.DriverMove cfg t)
  | wait (h : s.WaitMove cfg t)
  | world {l} (h : s.WorldMove l t)

theorem Sys.step_move {cfg : Config} {s t : Sys} {l : Label}
    (h : s.step cfg l = some t) : s.Move cfg t := by
  cases Sys.step_by h with
  | driver w h => exact .driver (Sys.driverStep_move h)
  | wait c w h => exact .wait (Sys.waitStep_move h)
  | world _ h => exact .world h

/-- Induction over a run of the job whose steps meet a condition. -/
theorem Sys.run_induction {cfg : Config} {P : Sys → Label → Prop}
    (motive : List Label → Sys → Prop) {ls : List Label} {s : Sys}
    (hmeet : Transition.StepsMeet (Sys.step cfg) P (Sys.init cfg) ls)
    (hrun : Transition.run (Sys.step cfg) (Sys.init cfg) ls = some s)
    (hinit : motive [] (Sys.init cfg))
    (hstep : ∀ done s l t, Transition.run (Sys.step cfg) (Sys.init cfg) done = some s →
      motive done s → P s l → s.step cfg l = some t → motive (done ++ [l]) t) :
    motive ls s :=
  Transition.run_induction_reached motive hinit hstep hmeet hrun

/-- The invariant rule of a run whose steps meet a condition. -/
theorem Sys.run_invariant {cfg : Config} {P : Sys → Label → Prop} {I : Sys → Prop}
    {ls : List Label} {s : Sys}
    (hmeet : Transition.StepsMeet (Sys.step cfg) P (Sys.init cfg) ls)
    (hrun : Transition.run (Sys.step cfg) (Sys.init cfg) ls = some s)
    (hinit : I (Sys.init cfg))
    (hstep : ∀ s l t, Sys.Reachable cfg s → Sys.Reachable cfg t → I s → P s l →
      s.step cfg l = some t → I t) : I s := by
  refine Sys.run_induction (fun _ s => I s) hmeet hrun hinit ?_
  intro done s l t hs hI hP ht
  have hreach : Sys.Reachable cfg s := ⟨done, hs⟩
  exact hstep s l t hreach (Transition.Reachable.extend hreach ht) hI hP ht

/-- The invariant rule of a job, by the cases of its moves. -/
theorem Sys.Reachable.invariant {cfg : Config} {I : Sys → Prop} {s : Sys}
    (hs : Sys.Reachable cfg s) (hinit : I (Sys.init cfg))
    (hmove : ∀ s t, Sys.Reachable cfg s → Sys.Reachable cfg t → I s → s.Move cfg t → I t) :
    I s := by
  obtain ⟨ls, hrun⟩ := hs
  exact Sys.run_invariant (P := fun _ _ => True)
    (Transition.stepsMeet_of_forall (fun _ _ => trivial) _ _) hrun hinit
    (fun s l t hs ht hI _ hstep => hmove s t hs ht hI (Sys.step_move hstep))

end Execra
