import Execra.Job.Ledger

/-!
Rules for the driver's programs on ledgers: one for each operation, and one
for each function that handles what an interpreter answers. A proof about the
driver executes `launchJob`, `loopTurn` and `finishJob` with the former and
passes over the interpreter with the latter.
-/

namespace Execra

open Program

namespace Driver

section Operations

variable {cfg : Config} {G : Ledger → Ledger → Prop} {d : Ledger}

@[simp] theorem wp_acquirePermit {Q : Bool → Ledger → Prop} :
    Driver.wp cfg G acquirePermit Q d ↔ Q true d :=
  ⟨fun h => (h default).2, fun h _ => ⟨respects_self d, h⟩⟩

@[simp] theorem wp_instant {Q : Instant → Ledger → Prop} :
    Driver.wp cfg G instant Q d ↔ ∀ t, Q t d :=
  ⟨fun h t => (h { instant := t }).2, fun h w => ⟨respects_self d, h w.instant⟩⟩

@[simp] theorem wp_now {Q : SystemTime → Ledger → Prop} :
    Driver.wp cfg G now Q d ↔ ∀ t, Q t d :=
  ⟨fun h t => (h { time := t }).2, fun h w => ⟨respects_self d, h w.time⟩⟩

@[simp] theorem wp_newPhaseId {Q : PhaseId → Ledger → Prop} :
    Driver.wp cfg G newPhaseId Q d ↔
      Respects G d d.tookId ∧ Q (cfg.phaseIds d.phasesMade) d.tookId :=
  ⟨fun h => h default, fun h _ => h⟩

@[simp] theorem wp_openRawFile {Q : Unit → Ledger → Prop} :
    Driver.wp cfg G openRawFile Q d ↔
      ∀ opens, Respects G d (d.openRaw opens) ∧ Q () (d.openRaw opens) :=
  ⟨fun h opens => h { rawOpens := opens }, fun h w => h w.rawOpens⟩

@[simp] theorem wp_spawnChild {Q : Except IoError Nat → Ledger → Prop} :
    Driver.wp cfg G spawnChild Q d ↔
      (∀ e, Respects G d d.failSpawn ∧ Q (.error e) d.failSpawn) ∧
      (∀ pid, Respects G d (d.spawned pid) ∧ Q (.ok pid) (d.spawned pid)) := by
  constructor
  · intro h
    exact ⟨fun e => h { spawned := .error e }, fun pid => h { spawned := .ok pid }⟩
  · rintro ⟨herror, hok⟩ w
    simp only [Ledger.act]
    cases w.spawned with
    | error e => exact herror e
    | ok pid => exact hok pid

@[simp] theorem wp_send {e : Event} {Q : Unit → Ledger → Prop} :
    Driver.wp cfg G (send e) Q d ↔ Respects G d (d.send e) ∧ Q () (d.send e) :=
  ⟨fun h => h default, fun h _ => h⟩

@[simp] theorem wp_insertEvent {e : Event} {Q : Unit → Ledger → Prop} :
    Driver.wp cfg G (insertEvent e) Q d ↔ Q () d :=
  ⟨fun h => (h default).2, fun h _ => ⟨respects_self d, h⟩⟩

@[simp] theorem wp_updateSnapshot {u : SnapshotUpdate} {Q : Unit → Ledger → Prop} :
    Driver.wp cfg G (updateSnapshot u) Q d ↔
      Respects G d (d.update u) ∧ Q () (d.update u) :=
  ⟨fun h => h default, fun h _ => h⟩

@[simp] theorem wp_persistSnapshot {Q : Unit → Ledger → Prop} :
    Driver.wp cfg G persistSnapshot Q d ↔
      ∀ ok, Respects G d (d.upsert ok) ∧ Q () (d.upsert ok) :=
  ⟨fun h ok => h { upsertOk := ok }, fun h w => h w.upsertOk⟩

@[simp] theorem wp_writeRaw {text : String} {Q : Unit → Ledger → Prop} :
    Driver.wp cfg G (writeRaw text) Q d ↔
      Respects G d (d.writeRaw text) ∧ Q () (d.writeRaw text) :=
  ⟨fun h => h default, fun h _ => h⟩

@[simp] theorem wp_pushMemoryRaw {line : String} {Q : Unit → Ledger → Prop} :
    Driver.wp cfg G (pushMemoryRaw line) Q d ↔
      Respects G d (d.push line) ∧ Q () (d.push line) :=
  ⟨fun h => h default, fun h _ => h⟩

@[simp] theorem wp_finalizeRawLog {Q : Unit → Ledger → Prop} :
    Driver.wp cfg G finalizeRawLog Q d ↔
      Respects G d d.closeRaw ∧ Q () d.closeRaw :=
  ⟨fun h => h default, fun h _ => h⟩

@[simp] theorem wp_spawnWaitTask {pg : Option ProcessGroup} {Q : Unit → Ledger → Prop} :
    Driver.wp cfg G (spawnWaitTask pg) Q d ↔
      Respects G d (d.attend pg) ∧ Q () (d.attend pg) :=
  ⟨fun h => h default, fun h _ => h⟩

@[simp] theorem wp_onLine {ctx : Context} {line : Line}
    {Q : InterpreterReply → Ledger → Prop} :
    Driver.wp cfg G (onLine ctx line) Q d ↔ ∀ reply, Q reply d :=
  ⟨fun h reply => (h { interp := reply }).2, fun h w => ⟨respects_self d, h w.interp⟩⟩

@[simp] theorem wp_onExit {ctx : Context} {exit : ExitCode}
    {Q : InterpreterReply → Ledger → Prop} :
    Driver.wp cfg G (onExit ctx exit) Q d ↔ ∀ reply, Q reply d :=
  ⟨fun h reply => (h { interp := reply }).2, fun h w => ⟨respects_self d, h w.interp⟩⟩

@[simp] theorem wp_isCancelled {Q : Bool → Ledger → Prop} :
    Driver.wp cfg G isCancelled Q d ↔
      ∀ b, Respects G d (d.judge b) ∧ Q b (d.judge b) :=
  ⟨fun h b => h { token := b }, fun h w => h w.token⟩

@[simp] theorem wp_reply {outcome : Outcome} {Q : Unit → Ledger → Prop} :
    Driver.wp cfg G (reply outcome) Q d ↔
      Respects G d (d.answer outcome) ∧ Q () (d.answer outcome) :=
  ⟨fun h => h default, fun h _ => h⟩

@[simp] theorem wp_emit {body : EventBody} {time : SystemTime}
    {Q : Unit → Ledger → Prop} :
    Driver.wp cfg G (emit cfg body time) Q d ↔
      Respects G d (d.send { job := cfg.id, body, time }) ∧
        Q () (d.send { job := cfg.id, body, time }) := by
  simp [emit]

end Operations

section Functions

variable {cfg : Config} {G : Ledger → Ledger → Prop} {d : Ledger}

theorem wp_openRawLog {Q : Unit → Ledger → Prop}
    (h : ∀ opens, (opens = true → cfg.runtime.persistsRaw = true) →
      Respects G d (d.openRaw opens) ∧ Q () (d.openRaw opens)) :
    Driver.wp cfg G (openRawLog cfg) Q d := by
  unfold openRawLog
  split
  · next hpersists => exact wp_openRawFile.mpr (fun opens => h opens (fun _ => hpersists))
  · exact (h false (by simp)).2

theorem wp_rememberRaw {line : String} {Q : Unit → Ledger → Prop} :
    Driver.wp cfg G (rememberRaw cfg line) Q d ↔
      Respects G d (d.remember cfg line) ∧ Q () (d.remember cfg line) := by
  unfold rememberRaw Ledger.remember
  split
  · exact wp_pushMemoryRaw
  · simp

/-- The end of a job: five changes of the ledger, in this order. -/
theorem wp_finalizeJob {outcome : Outcome} {Q : Unit → Ledger → Prop}
    (h : ∀ ok time,
      let finalized := d.update (.finalized outcome)
      let stored := finalized.upsert ok
      let sent := stored.closeRaw.send { job := cfg.id, body := .finalized outcome, time }
      Respects G d finalized ∧ Respects G finalized stored ∧
        Respects G stored stored.closeRaw ∧ Respects G stored.closeRaw sent ∧
        Respects G sent (sent.answer outcome) ∧ Q () (sent.answer outcome)) :
    Driver.wp cfg G (finalizeJob cfg outcome) Q d := by
  simp only [finalizeJob, wp_bind, wp_updateSnapshot, wp_persistSnapshot, wp_finalizeRawLog,
    wp_now, wp_emit, wp_reply]
  refine ⟨(h true 0).1, fun ok => ⟨(h ok 0).2.1, (h ok 0).2.2.1, fun time => ?_⟩⟩
  exact (h ok time).2.2.2

/-- The start of a job whose process is running: four changes of the ledger. -/
theorem wp_startJob {start : Instant} {pid : Nat} {Q : Next → Ledger → Prop}
    (h : ∀ ok sentAt startedAt,
      let sent := d.send { job := cfg.id, body := .jobStarted pid, time := sentAt }
      let running := sent.update (.running startedAt)
      let stored := running.upsert ok
      let attended := stored.attend (ProcessGroup.assign (some pid))
      Respects G d sent ∧ Respects G sent running ∧ Respects G running stored ∧
        Respects G stored attended ∧ Q (.loop { start }) attended) :
    Driver.wp cfg G (startJob cfg start pid) Q d := by
  simp only [startJob, wp_bind, wp_updateSnapshot, wp_persistSnapshot, wp_spawnWaitTask,
    wp_now, wp_emit, wp_pure]
  intro sentAt
  refine ⟨(h true sentAt 0).1, fun startedAt => ⟨(h true sentAt startedAt).2.1, ?_⟩⟩
  exact fun ok => (h ok sentAt startedAt).2.2

/-- The driver up to the loop, or up to the end when the spawn fails. -/
theorem wp_spawnJob {Q : Next → Ledger → Prop}
    (h : ∀ opens, (opens = true → cfg.runtime.persistsRaw = true) →
      let created := d.send
        { job := cfg.id, body := .jobCreated cfg.spec, time := cfg.createdAt }
      let opened := created.openRaw opens
      Respects G d created ∧ Respects G created opened ∧
        Respects G opened opened.failSpawn ∧
        (∀ error, Driver.wp cfg G (finalizeJob cfg (.failed (.spawnFailed error) none []))
          (fun _ => Q .returned) opened.failSpawn) ∧
        ∀ start pid, Respects G opened (opened.spawned pid) ∧
          Driver.wp cfg G (startJob cfg start pid) Q (opened.spawned pid)) :
    Driver.wp cfg G (spawnJob cfg) Q d := by
  simp only [spawnJob, launchJob, wp_bind, wp_emit, wp_acquirePermit, wp_instant,
    wp_spawnChild]
  refine ⟨(h false (by simp)).1, fun start => wp_openRawLog (fun opens hopens => ?_)⟩
  obtain ⟨-, hopened, hfail, herror, hok⟩ := h opens hopens
  exact ⟨hopened, fun e => ⟨hfail, herror e.text⟩, fun pid => hok start pid⟩

/-- The exit branch: three changes of the ledger. -/
theorem wp_receiveExit {v : LoopVars} {outcome : WaitOutcome} {Q : Next → Ledger → Prop}
    (h : ∀ ok time,
      let sent := d.send { job := cfg.id, body := .exited (exitCodeOf outcome.status), time }
      let exited := sent.update (.exited (exitCodeOf outcome.status))
      let next : LoopVars :=
        { v with
          childExited := true
          timedOut := outcome.timedOut
          exitStatus := some outcome.status }
      Respects G d sent ∧ Respects G sent exited ∧ Respects G exited (exited.upsert ok) ∧
        Q (.loop next) (exited.upsert ok)) :
    Driver.wp cfg G (receiveExit cfg v (some outcome)) Q d := by
  simp only [receiveExit, wp_bind, wp_now, wp_emit, wp_updateSnapshot, wp_persistSnapshot,
    wp_pure]
  exact fun time => ⟨(h true time).1, (h true time).2.1, fun ok => (h ok time).2.2⟩

/-- `process_line` up to the interpreter: three changes of the ledger. -/
theorem wp_processLine {start : Instant} {stream : Stream} {text : String}
    {state : DriverState} {Q : DriverState → Ledger → Prop}
    (h : ∀ time,
      let written := d.writeRaw (rawLine stream text ++ "\n")
      let kept := written.remember cfg (rawLine stream text)
      let sent := kept.send { job := cfg.id, body := .outputAppended stream text, time }
      Respects G d written ∧ Respects G written kept ∧ Respects G kept sent ∧
        Driver.wp cfg G (interpretLine cfg start { stream, text, time } state) Q sent) :
    Driver.wp cfg G (processLine cfg start stream text state) Q d := by
  simp only [processLine, wp_bind, wp_now, wp_writeRaw, wp_rememberRaw, wp_send]
  exact h

/-- A turn of the loop for a line. -/
theorem wp_lineTurn {v : LoopVars} {stream : Stream} {text : String}
    {Q : Next → Ledger → Prop}
    (h : Driver.wp cfg G (processLine cfg v.start stream text v.state)
      (fun state d' => Q (.loop { v with state }) d') d) :
    Driver.wp cfg G (loopTurn cfg v (.line stream (some (.ok text)))) Q d :=
  wp_seq _ _ d h (fun _ _ hQ => hQ)

end Functions

end Driver

/-! What an interpreter may cause. -/

/-- The events that report what an interpreter said, or that it panicked. -/
def EventBody.isMetadata : EventBody → Bool
  | .phaseEntered .. | .phaseUpdated .. | .phaseExited .. | .progressUpdated ..
  | .labelUpdated .. | .warningDetected .. | .knownErrorDetected .. | .findingEmitted ..
  | .promptDetected .. | .interpreterError .. => true
  | _ => false

/-- The parts of the snapshot an interpreter has a say in. -/
def SnapshotUpdate.isMetadata : SnapshotUpdate → Bool
  | .phase _ | .progress _ | .label _ => true
  | _ => false

/-- The changes of the ledger an interpreter may cause. -/
inductive Ledger.Metadata (cfg : Config) (d : Ledger) : Ledger → Prop where
  | send (body) (time) (h : body.isMetadata = true) :
      Metadata cfg d (d.send { job := cfg.id, body, time })
  | update (u) (h : u.isMetadata = true) : Metadata cfg d (d.update u)
  | newPhase : Metadata cfg d d.tookId

section Metadata

variable {cfg : Config}

private theorem respects_send (d : Ledger) {body : EventBody} (time : SystemTime)
    (h : body.isMetadata = true) :
    Respects (Ledger.Metadata cfg) d (d.send { job := cfg.id, body, time }) :=
  Or.inr (.send body time h)

private theorem respects_update (d : Ledger) {u : SnapshotUpdate} (h : u.isMetadata = true) :
    Respects (Ledger.Metadata cfg) d (d.update u) :=
  Or.inr (.update u h)

/-- An interpreter event only has metadata effects. -/
theorem applyEvent_metadata (ev : InterpreterEvent) (state : DriverState) (d : Ledger) :
    Driver.wp cfg (Ledger.Metadata cfg) (applyEvent cfg ev state) (fun _ _ => True) d := by
  cases ev with
  | enterPhase name label =>
      simp only [applyEvent, wp_bind, Driver.wp_now, Driver.wp_newPhaseId,
        Driver.wp_updateSnapshot, Driver.wp_emit, wp_pure, and_true]
      exact fun t => ⟨Or.inr .newPhase, respects_update _ rfl, respects_send _ t rfl⟩
  | updatePhase label =>
      rcases hstack : state.phaseStack with _ | ⟨top, rest⟩ <;>
        simp only [applyEvent, hstack, emitInterpError, wp_bind, Driver.wp_now,
          Driver.wp_emit, wp_pure, and_true]
      · exact fun t => respects_send d t rfl
      · exact fun t => respects_send d t rfl
  | exitPhase =>
      rcases hstack : state.phaseStack with _ | ⟨top, rest⟩ <;>
        simp only [applyEvent, hstack, emitInterpError, wp_bind, Driver.wp_now,
          Driver.wp_updateSnapshot, Driver.wp_emit, wp_pure, and_true]
      · exact fun t => respects_send d t rfl
      · exact fun t => ⟨respects_update d rfl, respects_send _ t rfl⟩
  | progress progress | label text =>
      simp only [applyEvent, wp_bind, Driver.wp_now, Driver.wp_updateSnapshot,
        Driver.wp_emit, wp_pure, and_true]
      exact fun t => ⟨respects_update d rfl, respects_send _ t rfl⟩
  | warning _ _ | knownError _ _ | finding _ | prompt _ =>
      simp only [applyEvent, wp_bind, Driver.wp_now, Driver.wp_emit, wp_pure, and_true]
      exact fun t => respects_send d t rfl
  | summary text => simp [applyEvent]

/-- The rule for `apply_events`: what each event keeps, they all keep. -/
theorem wp_applyEvents {G : Ledger → Ledger → Prop} {I : DriverState → Ledger → Prop}
    (hevent : ∀ ev state d, I state d → Driver.wp cfg G (applyEvent cfg ev state) I d)
    (evs : List InterpreterEvent) (state : DriverState) (d : Ledger) (h : I state d) :
    Driver.wp cfg G (applyEvents cfg evs state) I d := by
  induction evs generalizing state d with
  | nil => exact h
  | cons ev evs ih =>
      rw [applyEvents]
      exact wp_seq _ _ d (hevent ev state d h) ih

/-- The rule for a guarded interpreter call. -/
theorem wp_settleReply {G : Ledger → Ledger → Prop} {I : DriverState → Ledger → Prop}
    (hevent : ∀ ev state d, I state d → Driver.wp cfg G (applyEvent cfg ev state) I d)
    (hpanic : ∀ state d panic line time, I state d →
      Driver.wp cfg G (emit cfg (.interpreterError "interpreter" panic line) time)
        (fun _ d' => I { state with interpDisabled := true } d') d)
    (reply : InterpreterReply) (line : Option String) (state : DriverState) (d : Ledger)
    (h : I state d) : Driver.wp cfg G (settleReply cfg reply line state) I d := by
  cases reply with
  | ok evs => exact wp_applyEvents hevent evs state d h
  | error panic =>
      have hstep := hpanic state d panic line
      simp only [settleReply, wp_bind, Driver.wp_now, wp_pure]
      exact fun t => hstep t h

/-- The rule for the interpreter part of `process_line`. -/
theorem wp_interpretLine {G : Ledger → Ledger → Prop} {I : DriverState → Ledger → Prop}
    (hevent : ∀ ev state d, I state d → Driver.wp cfg G (applyEvent cfg ev state) I d)
    (hpanic : ∀ state d panic line time, I state d →
      Driver.wp cfg G (emit cfg (.interpreterError "interpreter" panic line) time)
        (fun _ d' => I { state with interpDisabled := true } d') d)
    (start : Instant) (line : Line) (state : DriverState) (d : Ledger) (h : I state d) :
    Driver.wp cfg G (interpretLine cfg start line state) I d := by
  unfold interpretLine
  split
  · simp only [interpContext, wp_bind, Driver.wp_instant, Driver.wp_onLine, wp_pure]
    exact fun _ reply => wp_settleReply hevent hpanic reply _ state d h
  · exact h

/-- The rule for `run_on_exit`. -/
theorem wp_runOnExit {G : Ledger → Ledger → Prop} {I : DriverState → Ledger → Prop}
    (hevent : ∀ ev state d, I state d → Driver.wp cfg G (applyEvent cfg ev state) I d)
    (hpanic : ∀ state d panic line time, I state d →
      Driver.wp cfg G (emit cfg (.interpreterError "interpreter" panic line) time)
        (fun _ d' => I { state with interpDisabled := true } d') d)
    (start : Instant) (exit : ExitCode) (state : DriverState) (d : Ledger) (h : I state d) :
    Driver.wp cfg G (runOnExit cfg start exit state) I d := by
  unfold runOnExit
  split
  · simp only [interpContext, wp_bind, Driver.wp_instant, Driver.wp_onExit, wp_pure]
    exact fun _ reply => wp_settleReply hevent hpanic reply _ state d h
  · exact h

private theorem panic_metadata (d : Ledger) (panic : String) (line : Option String)
    (time : SystemTime) :
    Driver.wp cfg (Ledger.Metadata cfg)
      (emit cfg (.interpreterError "interpreter" panic line) time) (fun _ _ => True) d :=
  Driver.wp_emit.mpr ⟨respects_send d time rfl, trivial⟩

theorem popOpenPhases_metadata (stack : List Phase) (d : Ledger) :
    Driver.wp cfg (Ledger.Metadata cfg) (popOpenPhases cfg stack) (fun _ _ => True) d := by
  induction stack generalizing d with
  | nil => trivial
  | cons top rest ih =>
      simp only [popOpenPhases, wp_bind, Driver.wp_now, Driver.wp_emit]
      exact fun t => ⟨respects_send d t rfl, ih _⟩

/-- A predicate of the ledger that metadata changes keep passes through the
interpreter part of `process_line`. -/
theorem interpretLine_keeps {G : Ledger → Ledger → Prop} {I : Ledger → Prop}
    (hkeep : ∀ d d', I d → d.Metadata cfg d' → G d d' ∧ I d') (start : Instant)
    (line : Line) (state : DriverState) (d : Ledger) (h : I d) :
    Driver.wp cfg G (interpretLine cfg start line state) (fun _ => I) d := by
  have hwp : Driver.wp cfg (Ledger.Metadata cfg) (interpretLine cfg start line state)
      (fun _ _ => True) d :=
    wp_interpretLine (fun ev state d _ => applyEvent_metadata ev state d)
      (fun _ d panic line time _ => panic_metadata d panic line time)
      start line state d trivial
  exact wp_consequence _ d (wp_invariant hkeep _ d hwp h) (fun _ _ hpost => hpost.2)

theorem runOnExit_keeps {G : Ledger → Ledger → Prop} {I : Ledger → Prop}
    (hkeep : ∀ d d', I d → d.Metadata cfg d' → G d d' ∧ I d') (start : Instant)
    (exit : ExitCode) (state : DriverState) (d : Ledger) (h : I d) :
    Driver.wp cfg G (runOnExit cfg start exit state) (fun _ => I) d := by
  have hwp : Driver.wp cfg (Ledger.Metadata cfg) (runOnExit cfg start exit state)
      (fun _ _ => True) d :=
    wp_runOnExit (fun ev state d _ => applyEvent_metadata ev state d)
      (fun _ d panic line time _ => panic_metadata d panic line time)
      start exit state d trivial
  exact wp_consequence _ d (wp_invariant hkeep _ d hwp h) (fun _ _ hpost => hpost.2)

theorem exitOpenPhases_keeps {G : Ledger → Ledger → Prop} {I : Ledger → Prop}
    (hkeep : ∀ d d', I d → d.Metadata cfg d' → G d d' ∧ I d') (state : DriverState)
    (d : Ledger) (h : I d) :
    Driver.wp cfg G (exitOpenPhases cfg state)
      (fun _ d' => I d' ∧ d'.snapshot.currentPhase = none) d := by
  have hpop := wp_invariant hkeep _ d (popOpenPhases_metadata state.phaseStack d) h
  rw [exitOpenPhases]
  refine wp_seq _ _ d hpop ?_
  rintro _ d' ⟨-, hd'⟩
  obtain ⟨hG, hI⟩ := hkeep _ _ hd' (.update (.phase none) rfl)
  simp only [wp_bind, Driver.wp_updateSnapshot, wp_pure]
  exact ⟨Or.inr hG, hI, rfl⟩

/-- The end of `drive_job`: `I` passes through the interpreter's last call and
the phases it left open, up to the reading of the token. -/
theorem finishJob_keeps {G : Ledger → Ledger → Prop} {I : Ledger → Prop}
    (hkeep : ∀ d d', I d → d.Metadata cfg d' → G d d' ∧ I d') {Q : Unit → Ledger → Prop}
    (v : LoopVars) (d : Ledger) (h : I d)
    (hlast : ∀ cancelled state d', I d' → d'.snapshot.currentPhase = none →
      Respects G d' (d'.judge cancelled) ∧
        Driver.wp cfg G
          (finalizeJob cfg
            (computeOutcome cancelled v.timedOut (finalExitCode v.exitStatus) state))
          Q (d'.judge cancelled)) :
    Driver.wp cfg G (finishJob cfg v) Q d := by
  rw [finishJob]
  refine wp_seq _ _ d (runOnExit_keeps hkeep v.start _ v.state d h) ?_
  intro state d₁ hd₁
  refine wp_seq _ _ d₁ (exitOpenPhases_keeps hkeep state d₁ hd₁) ?_
  rintro state d₂ ⟨hd₂, hphase⟩
  simp only [wp_bind, Driver.wp_isCancelled]
  exact fun cancelled => hlast cancelled state d₂ hd₂ hphase

end Metadata

end Execra
