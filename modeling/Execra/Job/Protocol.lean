import Execra.Model.Driver

/-!
A job at its two borders. An `Act` is an event the driver sends or a call of the
interpreter together with its reply. `Play` is an automaton over acts that
knows nothing of the driver's programs: it says which events a reply obliges
the driver to send, which calls are due, and what `Finalized` has to carry.
The state of the driver is followed from the acts alone.
-/

namespace Execra

inductive Act where
  | sent (event : Event)
  | onLine (ctx : Context) (line : Line) (reply : InterpreterReply)
  | onExit (ctx : Context) (exit : ExitCode) (reply : InterpreterReply)
deriving DecidableEq

/-- A summary is kept and not sent. -/
def InterpreterEvent.summaryText : InterpreterEvent → Option String
  | .summary text => some text
  | _ => none

/-- The events of a reply that are sent on. -/
def spokenOf (evs : List InterpreterEvent) : List InterpreterEvent :=
  evs.filter (fun ev => ev.summaryText.isNone)

def lastSummary (evs : List InterpreterEvent) : Option String :=
  (evs.filterMap InterpreterEvent.summaryText).getLast?

theorem lastSummary_append (evs more : List InterpreterEvent) :
    lastSummary (evs ++ more) = (lastSummary more).or (lastSummary evs) := by
  rw [lastSummary, List.filterMap_append, List.getLast?_append]
  rfl

namespace DriverState

/-- The state once all summaries of a reply are in it. -/
def heard (state : DriverState) (evs : List InterpreterEvent) : DriverState :=
  { state with summary := (lastSummary evs).or state.summary }

/-- The state after a call of the interpreter. -/
def hear (state : DriverState) : InterpreterReply → DriverState
  | .ok evs => state.heard evs
  | .error _ => { state with interpDisabled := true }

/-- The state after an event was sent. -/
def tell (state : DriverState) (e : Event) : DriverState :=
  match e.body with
  | .phaseEntered id name label =>
      { state with phaseStack := { id, name, label, enteredAt := e.time } :: state.phaseStack }
  | .phaseUpdated _ label =>
      match state.phaseStack with
      | top :: rest => { state with phaseStack := { top with label := some label } :: rest }
      | [] => state
  | .phaseExited _ => { state with phaseStack := state.phaseStack.tail }
  | .knownErrorDetected code message => { state with knownError := some (code, message) }
  | .findingEmitted finding => { state with findings := state.findings ++ [finding] }
  | _ => state

def follow (state : DriverState) : Act → DriverState
  | .sent e => state.tell e
  | .onLine _ _ reply => state.hear reply
  | .onExit _ _ reply => state.hear reply

end DriverState

/-- What the acts so far make of the driver's state. -/
def stateAfter (acts : List Act) : DriverState := acts.foldl DriverState.follow {}

@[simp] theorem stateAfter_append (acts more : List Act) :
    stateAfter (acts ++ more) = more.foldl DriverState.follow (stateAfter acts) :=
  List.foldl_append ..

/-- The event the driver sends for an event of an interpreter. -/
inductive Announces (state : DriverState) : InterpreterEvent → EventBody → Prop where
  | enterPhase (id name label) :
      Announces state (.enterPhase name label) (.phaseEntered id name label)
  | updatePhase {top rest} (label) (h : state.phaseStack = top :: rest) :
      Announces state (.updatePhase label) (.phaseUpdated top.id label)
  | updateNone (label) (h : state.phaseStack = []) :
      Announces state (.updatePhase label)
        (.interpreterError "interpreter" "UpdatePhase with empty phase stack" none)
  | exitPhase {top rest} (h : state.phaseStack = top :: rest) :
      Announces state .exitPhase (.phaseExited top.id)
  | exitNone (h : state.phaseStack = []) :
      Announces state .exitPhase
        (.interpreterError "interpreter" "ExitPhase with empty phase stack" none)
  | progress (progress) : Announces state (.progress progress) (.progressUpdated progress.normalize)
  | label (text) : Announces state (.label text) (.labelUpdated text)
  | warning (code message) :
      Announces state (.warning code message) (.warningDetected code message)
  | knownError (code message) :
      Announces state (.knownError code message) (.knownErrorDetected code message)
  | finding (finding) : Announces state (.finding finding) (.findingEmitted finding)
  | prompt (prompt) : Announces state (.prompt prompt) (.promptDetected prompt)

/-- What the driver owes. After `events` and `panicked` comes the loop again, or
the end of the job if the call was `on_exit`. -/
inductive Stage where
  | events (due : List InterpreterEvent) (final : Bool)
  | line (line : Line)
  | panicked (error : String) (line : Option String) (final : Bool)
  | finalized

structure Play where
  stage : Stage := .events [] false
  state : DriverState := {}
  started : Bool := false
  exit : Option ExitCode := none

/-- What a reply obliges to. -/
def Stage.ofReply (line : Option String) (final : Bool) : InterpreterReply → Stage
  | .ok evs => .events (spokenOf evs) final
  | .error error => .panicked error line final

def Play.enabled (cfg : Config) (play : Play) : Bool :=
  cfg.interpreter && !play.state.interpDisabled

/-- What a context tells of the job. -/
structure Context.Shows (ctx : Context) (cfg : Config) (state : DriverState) : Prop where
  job : ctx.job = cfg.id
  command : ctx.command = cfg.spec
  currentPhase : ctx.currentPhase = state.phaseStack.head?
  phaseStack : ctx.phaseStack = state.phaseStack.reverse

section Plays

variable (cfg : Config)

/-- An act that may come next. -/
inductive Play.Step (play : Play) : Act → Play → Prop where
  | created (command time) (hstage : play.stage = .events [] false) :
      Step play (.sent { job := cfg.id, body := .jobCreated command, time }) play
  | started (pid time) (hstage : play.stage = .events [] false) :
      Step play (.sent { job := cfg.id, body := .jobStarted pid, time })
        { play with started := true }
  | output (stream text time) (hstage : play.stage = .events [] false) :
      Step play (.sent { job := cfg.id, body := .outputAppended stream text, time })
        { play with
          stage := if play.enabled cfg then .line { stream, text, time } else .events [] false }
  | exited (exit time) (hstage : play.stage = .events [] false) (hfirst : play.exit = none) :
      Step play (.sent { job := cfg.id, body := .exited exit, time })
        { play with exit := some exit }
  | onLine {ctx line} (reply) (hstage : play.stage = .line line)
      (henabled : play.enabled cfg = true) (hctx : ctx.Shows cfg play.state) :
      Step play (.onLine ctx line reply)
        { play with stage := .ofReply (some line.text) false reply, state := play.state.hear reply }
  | onExit {ctx exit} (reply) (hstage : play.stage = .events [] false)
      (henabled : play.enabled cfg = true) (hexit : play.exit = some exit)
      (hctx : ctx.Shows cfg play.state) :
      Step play (.onExit ctx exit reply)
        { play with stage := .ofReply none true reply, state := play.state.hear reply }
  | said {ev due final body} (time) (hstage : play.stage = .events (ev :: due) final)
      (h : Announces play.state ev body) :
      Step play (.sent { job := cfg.id, body, time })
        { play with
          stage := .events due final
          state := play.state.tell { job := cfg.id, body, time } }
  | panicked {error line final} (time) (hstage : play.stage = .panicked error line final) :
      Step play
        (.sent { job := cfg.id, body := .interpreterError "interpreter" error line, time })
        { play with stage := .events [] final }
  | closed {final top rest} (time) (hstage : play.stage = .events [] final)
      (hfinal : final = true ∨ play.enabled cfg = false) (hexit : play.exit.isSome)
      (hstack : play.state.phaseStack = top :: rest) :
      Step play (.sent { job := cfg.id, body := .phaseExited top.id, time })
        { play with stage := .events [] true, state := { play.state with phaseStack := rest } }
  | refused (error time) (hstage : play.stage = .events [] false)
      (hstarted : play.started = false) :
      Step play
        (.sent { job := cfg.id, time, body := .finalized (.failed (.spawnFailed error) none []) })
        { play with stage := .finalized }
  | finalized {final exit} (cancelled timedOut time) (hstage : play.stage = .events [] final)
      (hfinal : final = true ∨ play.enabled cfg = false) (hexit : play.exit = some exit)
      (hstack : play.state.phaseStack = []) :
      Step play
        (.sent { job := cfg.id, time,
                 body := .finalized (computeOutcome cancelled timedOut exit play.state) })
        { play with stage := .finalized }

/-- Acts the automaton accepts, and where they lead it. -/
inductive Plays : List Act → Play → Prop where
  | nil : Plays [] {}
  | snoc {acts play act next} (h : Plays acts play) (hstep : play.Step cfg act next) :
      Plays (acts ++ [act]) next

end Plays

section Facts

variable {cfg : Config} {play next : Play} {act : Act} {acts : List Act}

theorem Play.Step.state (h : play.Step cfg act next) : next.state = play.state.follow act := by
  cases h with
  | closed time hstage hfinal hexit hstack =>
      simp [DriverState.follow, DriverState.tell, hstack]
  | _ => rfl

theorem Plays.state (h : Plays cfg acts play) : play.state = stateAfter acts := by
  induction h with
  | nil => rfl
  | snoc _ hstep ih => rw [stateAfter_append, hstep.state, ih]; rfl

/-- Nothing follows `Finalized`. -/
theorem Play.Step.not_over (h : play.Step cfg act next) : play.stage ≠ .finalized := by
  cases h with
  | created _ _ hstage | started _ _ hstage | output _ _ _ hstage | exited _ _ hstage
  | onLine _ hstage | onExit _ hstage | said _ hstage | panicked _ hstage | closed _ hstage
  | refused _ _ hstage | finalized _ _ _ hstage =>
      rw [hstage]
      exact nofun

end Facts

end Execra
