import Execra.Job.Clock
import Execra.Model.Progress
import Execra.Store.Listing
import Execra.Store.Payload

/-!
What a job makes of the values it is given. As long as the clock, the operating system and
the interpreter answer with values of the source's types, so does the job, with one
difference: an interpreter may report a fraction that is no number, or none between 0
and 1, and what the job tells of it is one.
-/

namespace Execra

open Program

/-! Progress. -/

/-- A value that the float of the source can have. -/
def F32.IsValue (value : F32) : Prop := ∀ q, value = .finite q → F32.ofRat q = value

/-- What an interpreter can report. -/
def Progress.IsValue : Progress → Prop
  | .determinate (.fraction value) => value.IsValue
  | .determinate metric => metric.WellTyped
  | .unknown | .indeterminate _ => True

/-- What a job tells of it. -/
structure Progress.Sendable (progress : Progress) : Prop where
  typed : progress.WellTyped
  normal : progress.normalize = progress

/-- A fraction that a consumer reads off a progress lies between 0 and 1. -/
def Progress.InUnit (progress : Progress) : Prop :=
  ∀ value ∈ progress.asFraction, ∃ q : ℚ, value = .finite q ∧ 0 ≤ q ∧ q ≤ 1

theorem clamp01_unit (value : F32) : ∃ q : ℚ, clamp01 value = .finite q ∧ 0 ≤ q ∧ q ≤ 1 := by
  cases value with
  | nan => exact ⟨0, rfl, le_rfl, zero_le_one⟩
  | inf negative => cases negative <;> exact ⟨_, rfl, by norm_num, by norm_num⟩
  | finite q => exact ⟨_, rfl, le_max_left _ _, max_le zero_le_one (min_le_right _ _)⟩

theorem Progress.share_unit {done total : Nat} {value : F32} (h : share done total = some value) :
    ∃ q : ℚ, value = .finite q ∧ 0 ≤ q ∧ q ≤ 1 := by
  unfold share at h
  split at h
  · cases h
    exact clamp01_unit _
  · cases h

theorem Progress.inUnit_of_normal {progress : Progress} (h : progress.normalize = progress) :
    progress.InUnit := by
  intro value hvalue
  rcases progress with _ | _ | (reported | ⟨done, total⟩ | ⟨done, _ | total⟩)
  · cases hvalue
  · cases hvalue
  · cases hvalue
    obtain ⟨q, hq, hunit⟩ := clamp01_unit value
    refine ⟨q, ?_, hunit⟩
    rw [← hq]
    exact (ProgressMetric.fraction.inj (Progress.determinate.inj h)).symm
  · exact share_unit hvalue
  · cases hvalue
  · exact share_unit hvalue

theorem ofRat_unit {q : ℚ} (h : F32.ofRat q = .finite q) :
    F32.ofRat (max 0 (min q 1)) = .finite (max 0 (min q 1)) := by
  rcases max_choice (0 : ℚ) (min q 1) with hmax | hmax <;> rw [hmax]
  · decide +kernel
  · rcases min_choice q 1 with hmin | hmin <;> rw [hmin]
    · exact h
    · decide +kernel

/-- Normalizing makes a number of everything that can be reported. -/
theorem Progress.IsValue.normalize {progress : Progress} (h : progress.IsValue) :
    progress.normalize.Sendable := by
  rcases progress with _ | _ | (value | _ | _)
  · exact ⟨trivial, rfl⟩
  · exact ⟨trivial, rfl⟩
  · obtain ⟨q, hq, hzero, hone⟩ := clamp01_unit value
    refine ⟨⟨q, hq, ?_⟩, ?_⟩
    · rw [hq]
      cases value with
      | nan => cases hq; decide +kernel
      | inf negative => cases negative <;> cases hq <;> decide +kernel
      | finite r => cases hq; exact ofRat_unit (h r rfl)
    · have hclamped : clamp01 (.finite q) = .finite q := by
        rw [clamp01, min_eq_left hone, max_eq_right hzero]
      change Progress.determinate (.fraction (clamp01 (clamp01 value))) =
        .determinate (.fraction (clamp01 value))
      rw [hq, hclamped]
  · exact ⟨h, rfl⟩
  · exact ⟨h, rfl⟩

theorem F64.toU64_lt (x : F64) : x.toU64 < 2 ^ 64 := by
  cases x with
  | nan => decide
  | inf negative => cases negative <;> decide
  | finite q =>
      have hword : min q.floor.toNat (2 ^ 64 - 1) ≤ 2 ^ 64 - 1 := min_le_right _ _
      exact Nat.lt_of_le_of_lt hword (by decide)

/-- Two readings of megabytes make a progress, numbers or not. -/
theorem Progress.bytesMb_sendable (doneMb totalMb : F64) : (bytesMb doneMb totalMb).Sendable := by
  refine ⟨⟨F64.toU64_lt _, fun total htotal => ?_⟩, rfl⟩
  cases htotal
  exact F64.toU64_lt _

/-! What the world answers, and what the job does with it. -/

def InterpreterEvent.IsValue : InterpreterEvent → Prop
  | .progress reported => reported.IsValue
  | .finding found => found.WellTyped
  | _ => True

def InterpreterReply.IsValue (reply : InterpreterReply) : Prop :=
  ∀ evs, reply = .ok evs → ∀ ev ∈ evs, ev.IsValue

/-- The clock does not go back before the epoch, and a process id is a `u32`. -/
structure Oracle.WellTyped (w : Oracle) : Prop where
  time : SystemTime.WellTyped w.time
  spawned : ∀ pid, w.spawned = .ok pid → pid < 2 ^ 32
  interp : InterpreterReply.IsValue w.interp

def Label.WellTyped : Label → Prop
  | .driver w | .wait _ w => w.WellTyped
  | _ => True

/-- A fresh id is a UUID. -/
structure Config.WellTyped (cfg : Config) : Prop where
  id : cfg.id.uuid < 2 ^ 128
  spec : cfg.spec.WellTyped
  createdAt : SystemTime.WellTyped cfg.createdAt
  phaseIds : ∀ n, (cfg.phaseIds n).uuid < 2 ^ 128

/-- The answers of a typed world. -/
def Op.Answers : (o : Op) → o.Ans → Prop
  | .now, time => SystemTime.WellTyped time
  | .newPhaseId, id => PhaseId.uuid id < 2 ^ 128
  | .spawnChild, spawned => ∀ pid, spawned = .ok pid → pid < 2 ^ 32
  | .onLine _ _, told => InterpreterReply.IsValue told
  | .onExit _ _, told => InterpreterReply.IsValue told
  | _, _ => True

def EventBody.Sendable : EventBody → Prop
  | .progressUpdated progress => progress.Sendable
  | body => body.WellTyped

/-- An event of the source's types whose progress has been normalized. -/
structure Event.Sendable (e : Event) : Prop where
  job : e.job.uuid < 2 ^ 128
  body : e.body.Sendable
  time : SystemTime.WellTyped e.time

theorem Event.Sendable.wellTyped {e : Event} (h : e.Sendable) : e.WellTyped := by
  refine ⟨h.job, ?_, h.time⟩
  obtain ⟨job, body, time⟩ := e
  have hbody := h.body
  cases body <;> first | exact hbody | exact hbody.typed

def SnapshotUpdate.Sendable : SnapshotUpdate → Prop
  | .progress reported => reported.Sendable
  | .finalized outcome => outcome.WellTyped
  | _ => True

def Op.Sendable : Op → Prop
  | .send sent | .insertEvent sent => sent.Sendable
  | .updateSnapshot u => u.Sendable
  | _ => True

structure DriverState.WellTyped (state : DriverState) : Prop where
  phases : ∀ phase ∈ state.phaseStack, phase.id.uuid < 2 ^ 128
  findings : ∀ finding ∈ state.findings, finding.WellTyped

def Next.WellTyped : Next → Prop
  | .loop v => v.state.WellTyped
  | .returned => True

/-- Given the answers of a typed world, a program of the driver sends and stores nothing
else than what can be sent. -/
def Driver.Typed {α : Type} (p : Driver α) (Q : α → Prop) : Prop :=
  p.Within Op.Answers Op.Sendable Q

/-! The driver. -/

section Driver

variable {cfg : Config} {α : Type} {Q : α → Prop}

private theorem typed_then {o : Op} {k : o.Ans → Driver α} (ho : o.Sendable)
    (h : ∀ a, o.Answers a → (k a).Typed Q) : Driver.Typed (.op o .ret >>= k) Q := ⟨ho, h⟩

private theorem typed_emit {body : EventBody} {time : SystemTime} {k : Unit → Driver α}
    (hcfg : cfg.WellTyped) (hbody : body.Sendable) (htime : SystemTime.WellTyped time)
    (h : (k ()).Typed Q) : Driver.Typed (emit cfg body time >>= k) Q := by
  have hevent : Event.Sendable { job := cfg.id, body, time } := ⟨hcfg.id, hbody, htime⟩
  exact ⟨hevent, fun _ _ => ⟨hevent, fun _ _ => h⟩⟩

private theorem typed_applyEvent (hcfg : cfg.WellTyped) {ev : InterpreterEvent}
    (hev : ev.IsValue) {state : DriverState} (hstate : state.WellTyped) :
    (applyEvent cfg ev state).Typed DriverState.WellTyped := by
  refine typed_then trivial (fun time htime => ?_)
  cases ev with
  | enterPhase name label =>
      refine typed_then trivial (fun id hid => typed_then trivial (fun _ _ => ?_))
      refine typed_emit hcfg hid htime ?_
      exact ⟨List.forall_mem_cons.mpr ⟨hid, hstate.phases⟩, hstate.findings⟩
  | updatePhase label =>
      obtain ⟨stack, findings, _, _, _⟩ := state
      cases stack with
      | nil => exact typed_emit hcfg trivial htime hstate
      | cons top rest =>
          obtain ⟨htop, hrest⟩ := List.forall_mem_cons.mp hstate.phases
          refine typed_emit hcfg htop htime ?_
          exact ⟨List.forall_mem_cons.mpr ⟨htop, hrest⟩, hstate.findings⟩
  | exitPhase =>
      obtain ⟨stack, findings, _, _, _⟩ := state
      cases stack with
      | nil => exact typed_emit hcfg trivial htime hstate
      | cons top rest =>
          obtain ⟨htop, hrest⟩ := List.forall_mem_cons.mp hstate.phases
          refine typed_then trivial (fun _ _ => ?_)
          refine typed_emit hcfg htop htime ?_
          exact ⟨hrest, hstate.findings⟩
  | progress progress =>
      have hsendable := Progress.IsValue.normalize hev
      refine typed_then hsendable (fun _ _ => ?_)
      exact typed_emit hcfg hsendable htime hstate
  | label text =>
      exact typed_then trivial (fun _ _ =>
        typed_emit hcfg trivial htime hstate)
  | warning code message => exact typed_emit hcfg trivial htime hstate
  | knownError code message =>
      refine typed_emit hcfg trivial htime ?_
      exact ⟨hstate.phases, hstate.findings⟩
  | finding finding =>
      refine typed_emit hcfg hev htime ?_
      refine ⟨hstate.phases, List.forall_mem_append.mpr ⟨hstate.findings, ?_⟩⟩
      exact List.forall_mem_singleton.mpr hev
  | prompt prompt => exact typed_emit hcfg trivial htime hstate
  | summary text => exact ⟨hstate.phases, hstate.findings⟩

private theorem typed_applyEvents (hcfg : cfg.WellTyped) {evs : List InterpreterEvent}
    (hevs : ∀ ev ∈ evs, ev.IsValue) {state : DriverState} (hstate : state.WellTyped) :
    (applyEvents cfg evs state).Typed DriverState.WellTyped := by
  induction evs generalizing state with
  | nil => exact hstate
  | cons ev evs ih =>
      obtain ⟨hev, hrest⟩ := List.forall_mem_cons.mp hevs
      exact Within.bind (typed_applyEvent hcfg hev hstate) (fun _ hnext => ih hrest hnext)

private theorem typed_settleReply (hcfg : cfg.WellTyped) {reply : InterpreterReply}
    (hreply : InterpreterReply.IsValue reply) (line : Option String) {state : DriverState}
    (hstate : state.WellTyped) :
    (settleReply cfg reply line state).Typed DriverState.WellTyped := by
  cases reply with
  | ok evs => exact typed_applyEvents hcfg (hreply evs rfl) hstate
  | error panic =>
      refine typed_then trivial (fun time htime => ?_)
      refine typed_emit hcfg trivial htime ?_
      exact ⟨hstate.phases, hstate.findings⟩

private theorem typed_interpretLine (hcfg : cfg.WellTyped) (start : Instant) (line : Line)
    {state : DriverState} (hstate : state.WellTyped) :
    (interpretLine cfg start line state).Typed DriverState.WellTyped := by
  unfold interpretLine
  split
  · exact typed_then trivial (fun _ _ => typed_then trivial (fun reply hreply =>
      typed_settleReply hcfg hreply _ hstate))
  · exact hstate

private theorem typed_processLine (hcfg : cfg.WellTyped) (start : Instant) (stream : Stream)
    (text : String) {state : DriverState} (hstate : state.WellTyped) :
    (processLine cfg start stream text state).Typed DriverState.WellTyped := by
  refine typed_then trivial (fun time htime => typed_then trivial (fun _ _ => ?_))
  have hremember : (rememberRaw cfg (rawLine stream text)).Typed (fun _ => True) := by
    unfold rememberRaw
    split
    · exact ⟨trivial, fun _ _ => trivial⟩
    · trivial
  refine Within.bind hremember (fun _ _ => typed_then ?_ (fun _ _ => ?_))
  · exact ⟨hcfg.id, trivial, htime⟩
  · exact typed_interpretLine hcfg start _ hstate

private theorem typed_runOnExit (hcfg : cfg.WellTyped) (start : Instant) (exit : ExitCode)
    {state : DriverState} (hstate : state.WellTyped) :
    (runOnExit cfg start exit state).Typed DriverState.WellTyped := by
  unfold runOnExit
  split
  · exact typed_then trivial (fun _ _ => typed_then trivial (fun reply hreply =>
      typed_settleReply hcfg hreply _ hstate))
  · exact hstate

private theorem typed_popOpenPhases (hcfg : cfg.WellTyped) {stack : List Phase}
    (hstack : ∀ phase ∈ stack, phase.id.uuid < 2 ^ 128) :
    (popOpenPhases cfg stack).Typed (fun _ => True) := by
  induction stack with
  | nil => trivial
  | cons top rest ih =>
      obtain ⟨htop, hrest⟩ := List.forall_mem_cons.mp hstack
      refine typed_then trivial (fun time htime => ?_)
      exact typed_emit hcfg htop htime (ih hrest)

private theorem typed_finalizeJob (hcfg : cfg.WellTyped) {outcome : Outcome}
    (houtcome : outcome.WellTyped) : (finalizeJob cfg outcome).Typed (fun _ => True) := by
  refine typed_then houtcome (fun _ _ => typed_then trivial (fun _ _ =>
    typed_then trivial (fun _ _ => typed_then trivial (fun time htime => ?_))))
  refine typed_emit hcfg houtcome htime ?_
  exact ⟨trivial, fun _ _ => trivial⟩

private theorem computeOutcome_wellTyped (wasCancelled timedOut : Bool) (exit : ExitCode)
    {state : DriverState} (hstate : state.WellTyped) :
    (computeOutcome wasCancelled timedOut exit state).WellTyped := by
  unfold computeOutcome
  split_ifs <;> exact hstate.findings

private theorem typed_finishJob (hcfg : cfg.WellTyped) {v : LoopVars} (hv : v.state.WellTyped) :
    (finishJob cfg v).Typed (fun _ => True) := by
  refine Within.bind (typed_runOnExit hcfg v.start _ hv) (fun state hstate => ?_)
  have hclosed : (exitOpenPhases cfg state).Typed DriverState.WellTyped :=
    Within.bind (typed_popOpenPhases hcfg hstate.phases) (fun _ _ =>
      typed_then trivial (fun _ _ => ⟨List.forall_mem_nil _, hstate.findings⟩))
  refine Within.bind hclosed (fun closed hwell => typed_then trivial (fun cancelled _ => ?_))
  exact typed_finalizeJob hcfg (computeOutcome_wellTyped _ _ _ hwell)

private theorem typed_loopTurn (hcfg : cfg.WellTyped) {v : LoopVars} (hv : v.state.WellTyped)
    (r : SelectResult) : (loopTurn cfg v r).Typed Next.WellTyped := by
  cases r with
  | line stream result =>
      rcases result with _ | _ | text
      · cases stream <;> exact hv
      · cases stream <;> exact hv
      · exact Within.bind (typed_processLine hcfg v.start stream text hv) (fun _ hstate => hstate)
  | exit result =>
      refine typed_then trivial (fun time htime => ?_)
      refine typed_emit hcfg trivial htime ?_
      exact typed_then trivial (fun _ _ => typed_then trivial (fun _ _ => hv))

private theorem typed_startJob (hcfg : cfg.WellTyped) (start : Instant) {pid : Nat}
    (hpid : pid < 2 ^ 32) : (startJob cfg start pid).Typed Next.WellTyped := by
  refine typed_then trivial (fun time htime => ?_)
  refine typed_emit hcfg hpid htime ?_
  exact typed_then trivial (fun _ _ => typed_then trivial (fun _ _ => typed_then trivial
    (fun _ _ => typed_then trivial (fun _ _ => ⟨List.forall_mem_nil _, List.forall_mem_nil _⟩))))

private theorem typed_spawnJob (hcfg : cfg.WellTyped) :
    (spawnJob cfg).Typed Next.WellTyped := by
  refine typed_emit hcfg hcfg.spec hcfg.createdAt ?_
  refine typed_then trivial (fun granted _ => ?_)
  cases granted with
  | false => trivial
  | true =>
      refine typed_then trivial (fun start _ => ?_)
      have hopen : (openRawLog cfg).Typed (fun _ => True) := by
        unfold openRawLog
        split
        · exact ⟨trivial, fun _ _ => trivial⟩
        · trivial
      refine Within.bind hopen (fun _ _ => typed_then trivial (fun spawned hspawned => ?_))
      cases spawned with
      | ok pid => exact typed_startJob hcfg start (hspawned pid rfl)
      | error e =>
          exact Within.bind (typed_finalizeJob hcfg (List.forall_mem_nil _)) (fun _ _ => trivial)

end Driver

/-! The store. -/

structure Job.WellTyped (job : Job) : Prop where
  command : job.command.WellTyped
  progress : job.progress.Sendable
  outcome : ∀ outcome ∈ job.outcome, outcome.WellTyped

structure JobRow.Legible (row : JobRow) : Prop where
  command : row.commandJson.value.WellTyped
  outcome : ∀ json ∈ row.outcomeJson, json.value.WellTyped

/-- All that the store has of JSON was made of values that come back from it. -/
structure Store.Legible (store : Store) : Prop where
  jobs : ∀ row ∈ store.jobs, row.Legible
  events : ∀ row ∈ store.events, row.payload.value.Sendable
  findings : ∀ row ∈ store.findings, row.findingJson.value.WellTyped

theorem Store.legible_empty : Store.Legible {} :=
  ⟨List.forall_mem_nil _, List.forall_mem_nil _, List.forall_mem_nil _⟩

theorem JobRow.legible_ofJob {job : Job} (h : job.WellTyped) : (JobRow.ofJob job).Legible := by
  refine ⟨h.command, fun json hjson => ?_⟩
  obtain ⟨outcome, houtcome, rfl⟩ := Option.map_eq_some_iff.mp hjson
  exact h.outcome outcome houtcome

theorem Store.Legible.upsertJob {store : Store} (h : store.Legible) {job : Job}
    (hjob : job.WellTyped) : (store.upsertJob job).Legible := by
  refine ⟨fun row hrow => ?_, h.events, h.findings⟩
  rcases mem_upsertRow hrow with hrow | rfl | ⟨old, hold, rfl⟩
  · exact h.jobs row hrow
  · exact JobRow.legible_ofJob hjob
  · exact ⟨(h.jobs old hold).command, (JobRow.legible_ofJob hjob).outcome⟩

theorem Store.Legible.insertEventRow {store : Store} (h : store.Legible) {event : Event}
    (hevent : event.Sendable) : (store.insertEventRow event).Legible :=
  ⟨h.jobs, List.forall_mem_append.mpr ⟨h.events, List.forall_mem_singleton.mpr hevent⟩,
    h.findings⟩

theorem Store.Legible.insertEvent {store : Store} (h : store.Legible) {event : Event}
    (hevent : event.Sendable) (eventOk findingOk : Bool) :
    (store.insertEvent event eventOk findingOk).1.Legible := by
  have hrow := h.insertEventRow hevent
  unfold Store.insertEvent
  split
  · exact h
  · next finding hbody =>
      have hfinding : finding.WellTyped := by
        have := hevent.body
        rwa [hbody] at this
      split_ifs
      · exact ⟨hrow.jobs, hrow.events,
          List.forall_mem_append.mpr ⟨h.findings, List.forall_mem_singleton.mpr hfinding⟩⟩
      · exact hrow
      · exact h
  · split_ifs
    · exact hrow
    · exact h

theorem Store.Legible.resurrect {store : Store} (h : store.Legible) :
    store.resurrectStrandedJobs.1.Legible := by
  refine ⟨fun row hrow => ?_, h.events, h.findings⟩
  obtain ⟨old, hold, rfl⟩ := List.mem_map.mp hrow
  have hlegible := h.jobs old hold
  unfold JobRow.resurrect
  split
  · refine ⟨hlegible.command, fun json hjson => ?_⟩
    cases hjson
    exact List.forall_mem_nil _
  · exact hlegible

/-! The job. -/

/-- The time that the wait task has taken for `Cancelled`. -/
def WaitPc.holding : WaitPc → Option SystemTime
  | .cancelSend time | .cancelInsert time => some time
  | _ => none

def Ctl.Typed : Ctl → Prop
  | .run p => p.Typed Next.WellTyped
  | .top v => v.state.WellTyped
  | .returned => True

/-- All that a job holds, has told and is going to tell. -/
structure Sys.Typed (s : Sys) : Prop where
  ctl : s.ctl.Typed
  wait : ∀ time ∈ s.wait.pc.holding, SystemTime.WellTyped time
  snapshot : s.snapshot.WellTyped
  log : ∀ e ∈ s.log, e.Sendable

private theorem typed_settle {p : Driver Next} (h : p.Typed Next.WellTyped) :
    (settle p).Typed := by
  cases p with
  | ret next => cases next <;> exact h
  | op o k => exact h

theorem Sys.typed_init {cfg : Config} (hcfg : cfg.WellTyped) : (Sys.init cfg).Typed := by
  refine ⟨typed_settle (typed_spawnJob hcfg), (fun _ h => nomatch h), ?_, List.forall_mem_nil _⟩
  exact ⟨hcfg.spec, ⟨trivial, rfl⟩, fun _ h => nomatch h⟩

/-- What is sent and stored in a step keeps the store legible. -/
def Sys.StoreLegible (s : Sys) : Prop := ∀ store ∈ s.store, store.Legible

section Step

variable {cfg : Config} {s t : Sys}

private theorem legible_insertEvent (h : s.StoreLegible) {event : Event}
    (hevent : event.Sendable) (w : Oracle) : (s.insertEvent event w).StoreLegible := by
  intro store hstore
  obtain ⟨before, hbefore, rfl⟩ := Option.map_eq_some_iff.mp hstore
  exact (h before hbefore).insertEvent hevent w.insertOk w.findingOk

private theorem legible_upsertSnapshot (h : s.StoreLegible) (hjob : s.snapshot.WellTyped)
    (w : Oracle) : (s.upsertSnapshot w).StoreLegible := by
  unfold Sys.upsertSnapshot
  split
  · exact h
  · next store hstore =>
      split
      · intro after hafter
        cases hafter
        exact (h store hstore).upsertJob hjob
      · exact h

private theorem SnapshotUpdate.Sendable.apply {u : SnapshotUpdate} (hu : u.Sendable) {job : Job}
    (h : job.WellTyped) : (u.apply job).WellTyped := by
  cases u with
  | progress reported => exact ⟨h.command, hu, h.outcome⟩
  | finalized outcome =>
      refine ⟨h.command, h.progress, fun result hresult => ?_⟩
      cases hresult
      exact hu
  | _ => exact ⟨h.command, h.progress, h.outcome⟩

/-- An operation of the driver, with an answer of the typed world. -/
private theorem typed_act (hcfg : cfg.WellTyped) {w : Oracle} (hw : w.WellTyped)
    (h : s.Typed) (hstore : s.StoreLegible) {o : Op} (ho : o.Sendable) :
    o.Answers (s.act cfg w o).1 ∧
      (∀ time ∈ (s.act cfg w o).2.wait.pc.holding, SystemTime.WellTyped time) ∧
      (s.act cfg w o).2.snapshot.WellTyped ∧ (∀ e ∈ (s.act cfg w o).2.log, e.Sendable) ∧
      (s.act cfg w o).2.StoreLegible := by
  cases o with
  | now => exact ⟨hw.time, h.wait, h.snapshot, h.log, hstore⟩
  | newPhaseId => exact ⟨hcfg.phaseIds _, h.wait, h.snapshot, h.log, hstore⟩
  | openRawFile =>
      simp only [Sys.act]
      split <;> exact ⟨trivial, h.wait, h.snapshot, h.log, hstore⟩
  | spawnChild =>
      simp only [Sys.act]
      split <;> exact ⟨hw.spawned, h.wait, h.snapshot, h.log, hstore⟩
  | writeRaw text =>
      simp only [Sys.act]
      split <;> exact ⟨trivial, h.wait, h.snapshot, h.log, hstore⟩
  | send event =>
      refine ⟨trivial, h.wait, h.snapshot, ?_, hstore⟩
      exact List.forall_mem_append.mpr ⟨h.log, List.forall_mem_singleton.mpr ho⟩
  | insertEvent event =>
      exact ⟨trivial, h.wait, h.snapshot, h.log, legible_insertEvent hstore ho w⟩
  | updateSnapshot u => exact ⟨trivial, h.wait, ho.apply h.snapshot, h.log, hstore⟩
  | upsertSnapshot =>
      refine ⟨trivial, ?_, ?_, ?_, legible_upsertSnapshot hstore h.snapshot w⟩ <;>
        simp only [Sys.act, Sys.upsertSnapshot] <;> split
      · exact h.wait
      · split <;> exact h.wait
      · exact h.snapshot
      · split <;> exact h.snapshot
      · exact h.log
      · split <;> exact h.log
  | spawnWaitTask procGroup =>
      refine ⟨trivial, fun time htime => ?_, h.snapshot, h.log, hstore⟩
      cases htime
  | onLine ctx line => exact ⟨hw.interp, h.wait, h.snapshot, h.log, hstore⟩
  | onExit ctx exit => exact ⟨hw.interp, h.wait, h.snapshot, h.log, hstore⟩
  | _ => exact ⟨trivial, h.wait, h.snapshot, h.log, hstore⟩

private theorem typed_driverStep (hcfg : cfg.WellTyped) {w : Oracle} (hw : w.WellTyped)
    (h : s.Typed) (hstore : s.StoreLegible) (hstep : s.driverStep cfg w = some t) :
    t.Typed ∧ t.StoreLegible := by
  rcases Sys.driverStep_cases hstep with ⟨o, k, hctl, rfl⟩ | ⟨v, hctl, hmove⟩
  · have hrun := h.ctl
    rw [hctl] at hrun
    obtain ⟨hans, hwait, hsnapshot, hlog, hafter⟩ := typed_act hcfg hw h hstore hrun.1
    exact ⟨⟨typed_settle (hrun.2 _ hans), hwait, hsnapshot, hlog⟩, hafter⟩
  · have hv : v.state.WellTyped := by
      have := h.ctl
      rwa [hctl] at this
    have hturn (r : SelectResult) := typed_settle (typed_loopTurn hcfg hv r)
    have hleave : (exitLoop cfg v).Typed Next.WellTyped :=
      Within.bind (typed_finishJob hcfg hv) (fun _ _ => trivial)
    cases hmove with
    | op w' o k hctl' => rw [hctl] at hctl'; cases hctl'
    | pending => exact ⟨⟨h.ctl, h.wait, h.snapshot, h.log⟩, hstore⟩
    | leave v' hctl' =>
        cases hctl.symm.trans hctl'
        exact ⟨⟨typed_settle hleave, h.wait, h.snapshot, h.log⟩, hstore⟩
    | stdout v' result hctl' =>
        cases hctl.symm.trans hctl'
        exact ⟨⟨hturn (.line .stdout result), h.wait, h.snapshot, h.log⟩, hstore⟩
    | stderr v' result hctl' =>
        cases hctl.symm.trans hctl'
        exact ⟨⟨hturn (.line .stderr result), h.wait, h.snapshot, h.log⟩, hstore⟩
    | exit v' outcome hctl' =>
        cases hctl.symm.trans hctl'
        exact ⟨⟨hturn (.exit (some outcome)), h.wait, h.snapshot, h.log⟩, hstore⟩

private theorem typed_waitStep (hcfg : cfg.WellTyped) {c : WaitChoice} {w : Oracle}
    (hw : w.WellTyped) (h : s.Typed) (hstore : s.StoreLegible)
    (hstep : s.waitStep cfg w c = some t) : t.Typed ∧ t.StoreLegible := by
  have hnone : ∀ time ∈ (none : Option SystemTime), SystemTime.WellTyped time := by simp
  have hcancelled : ∀ time, SystemTime.WellTyped time → (cancelledEvent cfg time).Sendable :=
    fun time htime => ⟨hcfg.id, trivial, htime⟩
  by_cases hpc : s.wait.pc = .cancelStamp
  · obtain ⟨-, rfl⟩ := Sys.waitStep_stamp hpc hstep
    refine ⟨⟨h.ctl, fun time htime => ?_, h.snapshot, h.log⟩, hstore⟩
    cases htime
    exact hw.time
  · cases Sys.waitStep_move hstep with
    | stamp time hpc' => exact absurd hpc' hpc
    | send time hpc' =>
        have hheld : SystemTime.WellTyped time := h.wait time (by rw [hpc']; rfl)
        refine ⟨⟨h.ctl, fun held hheld' => ?_, h.snapshot, ?_⟩, hstore⟩
        · cases hheld'
          exact hheld
        · exact List.forall_mem_append.mpr
            ⟨h.log, List.forall_mem_singleton.mpr (hcancelled time hheld)⟩
    | insert time w' hpc' =>
        have hheld : SystemTime.WellTyped time := h.wait time (by rw [hpc']; rfl)
        exact ⟨⟨h.ctl, hnone, h.snapshot, h.log⟩,
          legible_insertEvent hstore (hcancelled time hheld) w'⟩
    | _ => exact ⟨⟨h.ctl, hnone, h.snapshot, h.log⟩, hstore⟩

/-- A step in a typed world. -/
theorem Sys.Typed.step (hcfg : cfg.WellTyped) {l : Label} (hl : l.WellTyped) (h : s.Typed)
    (hstore : s.StoreLegible) (hstep : s.step cfg l = some t) : t.Typed ∧ t.StoreLegible := by
  cases Sys.step_by hstep with
  | driver w hdriver => exact typed_driverStep hcfg hl h hstore hdriver
  | wait c w hwait => exact typed_waitStep hcfg hl h hstore hwait
  | world l hworld =>
      have hkept := hworld.tasks
      have hsnapshot : t.snapshot = s.snapshot := by
        cases hworld with
        | arrive stream bytes | close stream how => cases stream <;> rfl
        | _ => rfl
      refine ⟨⟨hkept.ctl ▸ h.ctl, hkept.wait ▸ h.wait, hsnapshot ▸ h.snapshot,
        hkept.log ▸ h.log⟩, fun store htaken => hstore store (hkept.store ▸ htaken)⟩

end Step

end Execra
