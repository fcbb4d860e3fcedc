import Execra.Job.Course

/-!
What the driver does once it has its permit: it never asks for another one, and
all it sends are events of its own job.
-/

namespace Execra

open Program

def Op.isUsual (cfg : Config) : Op → Bool
  | .acquirePermit => false
  | .send event => event.job = cfg.id
  | _ => true

/-- A program of a driver that has its permit. -/
def Driver.Usual {α : Type} (cfg : Config) (p : Driver α) : Prop :=
  p.Every (fun o => o.isUsual cfg = true)

section Usual

variable (cfg : Config)

private theorem usual_one {o : Op} (ho : o.isUsual cfg = true) :
    Driver.Usual cfg (.op o .ret) := ⟨ho, fun _ => trivial⟩

private theorem usual_then {α : Type} {o : Op} (ho : o.isUsual cfg = true)
    {k : o.Ans → Driver α} (h : ∀ a, (k a).Usual cfg) : Driver.Usual cfg (.op o .ret >>= k) :=
  every_bind (usual_one cfg ho) h

private theorem usual_send (body : EventBody) (time : SystemTime) :
    (Op.send { job := cfg.id, body, time }).isUsual cfg = true := decide_eq_true rfl

private theorem usual_emit (body : EventBody) (time : SystemTime) :
    (emit cfg body time).Usual cfg :=
  usual_then cfg (usual_send cfg body time) (fun _ => usual_one cfg rfl)

private theorem usual_reaction {state : DriverState} {p : Driver DriverState}
    (h : Reaction cfg state p) : p.Usual cfg := by
  cases h with
  | quiet next => exact usual_then cfg rfl (fun _ => trivial)
  | plain body | inside top rest label =>
      exact usual_then cfg rfl (fun _ =>
        every_bind (usual_emit cfg _ _) (fun _ => trivial))
  | told u body | leave top rest =>
      exact usual_then cfg rfl (fun _ => usual_then cfg rfl (fun _ =>
        every_bind (usual_emit cfg _ _) (fun _ => trivial)))
  | enter name label =>
      exact usual_then cfg rfl (fun _ => usual_then cfg rfl (fun _ =>
        usual_then cfg rfl (fun _ =>
          every_bind (usual_emit cfg _ _) (fun _ => trivial))))

private theorem usual_applyEvents (evs : List InterpreterEvent) (state : DriverState) :
    (applyEvents cfg evs state).Usual cfg := by
  induction evs generalizing state with
  | nil => trivial
  | cons ev evs ih =>
      exact every_bind (usual_reaction cfg (applyEvent_reaction cfg ev state)) ih

private theorem usual_settleReply (reply : InterpreterReply) (line : Option String)
    (state : DriverState) : (settleReply cfg reply line state).Usual cfg := by
  cases reply with
  | ok evs => exact usual_applyEvents cfg evs state
  | error panic =>
      exact usual_then cfg rfl (fun _ =>
        every_bind (usual_emit cfg _ _) (fun _ => trivial))

private theorem usual_interpContext (start : Instant) (state : DriverState) :
    (interpContext cfg start state).Usual cfg :=
  usual_then cfg rfl (fun _ => trivial)

private theorem usual_processLine (start : Instant) (stream : Stream) (text : String)
    (state : DriverState) : (processLine cfg start stream text state).Usual cfg := by
  refine usual_then cfg rfl (fun _ => usual_then cfg rfl (fun _ =>
    every_bind ?_ (fun _ => usual_then cfg (usual_send cfg _ _) (fun _ => ?_))))
  · unfold rememberRaw
    split
    · exact usual_one cfg rfl
    · trivial
  · unfold interpretLine
    split
    · exact every_bind (usual_interpContext cfg start state) (fun _ =>
        usual_then cfg rfl (fun reply => usual_settleReply cfg reply _ state))
    · trivial

private theorem usual_runOnExit (start : Instant) (exit : ExitCode) (state : DriverState) :
    (runOnExit cfg start exit state).Usual cfg := by
  unfold runOnExit
  split
  · exact every_bind (usual_interpContext cfg start state) (fun _ =>
      usual_then cfg rfl (fun reply => usual_settleReply cfg reply _ state))
  · trivial

private theorem usual_popOpenPhases (stack : List Phase) :
    (popOpenPhases cfg stack).Usual cfg := by
  induction stack with
  | nil => trivial
  | cons top rest ih =>
      exact usual_then cfg rfl (fun _ =>
        every_bind (usual_emit cfg _ _) (fun _ => ih))

private theorem usual_finalizeJob (outcome : Outcome) :
    (finalizeJob cfg outcome).Usual cfg :=
  usual_then cfg rfl (fun _ => usual_then cfg rfl (fun _ =>
    usual_then cfg rfl (fun _ => usual_then cfg rfl (fun _ =>
      every_bind (usual_emit cfg _ _) (fun _ => usual_one cfg rfl)))))

private theorem usual_finishJob (v : LoopVars) : (finishJob cfg v).Usual cfg :=
  every_bind (usual_runOnExit cfg v.start _ v.state) (fun state =>
    every_bind (every_bind (usual_popOpenPhases cfg state.phaseStack) (fun _ =>
      usual_then cfg rfl (fun _ => trivial))) (fun _ =>
        usual_then cfg rfl (fun _ => usual_finalizeJob cfg _)))

private theorem usual_loopTurn (v : LoopVars) (r : SelectResult) :
    (loopTurn cfg v r).Usual cfg := by
  cases r with
  | line stream result =>
      rcases result with _ | _ | text
      · trivial
      · trivial
      · exact every_bind (usual_processLine cfg v.start stream text v.state)
          (fun _ => trivial)
  | exit result =>
      exact usual_then cfg rfl (fun _ => every_bind (usual_emit cfg _ _) (fun _ =>
        usual_then cfg rfl (fun _ => usual_then cfg rfl (fun _ => trivial))))

private theorem usual_startJob (start : Instant) (pid : Nat) :
    (startJob cfg start pid).Usual cfg :=
  usual_then cfg rfl (fun _ => every_bind (usual_emit cfg _ _) (fun _ =>
    usual_then cfg rfl (fun _ => usual_then cfg rfl (fun _ =>
      usual_then cfg rfl (fun _ => usual_then cfg rfl (fun _ => trivial))))))

/-- The driver first asks for its permit. -/
theorem launchJob_acquires : ∃ k, launchJob cfg = .op .acquirePermit k ∧
    ∀ granted : Bool, Driver.Usual cfg (k granted) := by
  refine ⟨_, rfl, fun granted => ?_⟩
  have hopen : (openRawLog cfg).Usual cfg := by
    unfold openRawLog
    split
    · exact usual_one cfg rfl
    · trivial
  cases granted with
  | false => trivial
  | true =>
      refine usual_then cfg rfl (fun start =>
        every_bind hopen (fun _ => usual_then cfg rfl (fun spawned => ?_)))
      cases spawned with
      | ok pid => exact usual_startJob cfg start pid
      | error e => exact every_bind (usual_finalizeJob cfg _) (fun _ => trivial)

end Usual

/-- All operations a driver may still perform in this turn. -/
def Ctl.Every (P : Op → Prop) : Ctl → Prop
  | .run p => p.Every P
  | .top _ | .returned => True

theorem every_settle {P : Op → Prop} {p : Driver Next} (h : p.Every P) :
    (settle p).Every P := by
  cases p with
  | ret next => cases next <;> trivial
  | op o k => exact h

/-- What holds of the usual operations goes on to hold of the driver's. -/
theorem Ctl.Every.step {cfg : Config} {P : Op → Prop}
    (husual : ∀ o, o.isUsual cfg = true → P o) {s t : Sys} {l : Label} (h : s.ctl.Every P)
    (hstep : s.step cfg l = some t) : t.ctl.Every P := by
  have hturn : ∀ v r, (settle (loopTurn cfg v r)).Every P := fun v r =>
    every_settle ((usual_loopTurn cfg v r).mono husual)
  rcases (Sys.step_move hstep).frame with hdriver | ⟨hctl, -⟩
  · cases hdriver with
    | op w o k hctl =>
        rw [hctl] at h
        exact every_settle (h.2 _)
    | leave v hctl hended =>
        exact every_settle (every_bind ((usual_finishJob cfg v).mono husual) (fun _ => trivial))
    | pending v hctl => rw [hctl] at h; exact hctl ▸ trivial
    | stdout v result => exact hturn v (.line .stdout result)
    | stderr v result => exact hturn v (.line .stderr result)
    | exit v outcome => exact hturn v (.exit (some outcome))
  · rw [hctl]
    exact h

/-- An event that is sent belongs to the job. -/
def Op.isOwn (cfg : Config) : Op → Bool
  | .send event => event.job = cfg.id
  | _ => true

theorem Op.isOwn_of_isUsual {cfg : Config} (o : Op) (h : o.isUsual cfg = true) :
    o.isOwn cfg = true := by
  cases o <;> first | rfl | exact h

/-- A driver sends the events of its own job. -/
theorem Sys.Reachable.sends_own {cfg : Config} {s : Sys} (hs : Sys.Reachable cfg s) :
    s.ctl.Every (fun o => o.isOwn cfg = true) := by
  refine Transition.Reachable.invariant (I := fun s => s.ctl.Every (fun o => o.isOwn cfg = true))
    hs ?_ (fun _ _ _ h hstep => h.step Op.isOwn_of_isUsual hstep)
  obtain ⟨k, hlaunch, hgranted⟩ := launchJob_acquires cfg
  change Ctl.Every _ (settle (spawnJob cfg))
  refine every_settle (every_bind ?_ (fun _ => ?_))
  · exact ⟨decide_eq_true rfl, fun _ => ⟨rfl, fun _ => trivial⟩⟩
  · rw [hlaunch]
    exact ⟨rfl, fun granted => (hgranted granted).mono Op.isOwn_of_isUsual⟩

end Execra
