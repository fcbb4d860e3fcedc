import Execra.Interpret.Messages
import Execra.Job.Flat

/-!
A rule interpreter in a job and the same interpreter alone. The driver calls it line
by line among everything else it does, sends what it says event by event, and gathers
the outcome on the way. All that comes of it is what the interpreter makes of the lines
of the log in one go: the events of the job tell its events in their order, and the
outcome is computed from them.
-/

namespace Execra

/-- What an interpreter has said, as an event tells it. -/
def EventBody.told : EventBody → Option InterpreterEvent
  | .phaseEntered _ name label => some (.enterPhase name label)
  | .phaseUpdated _ label => some (.updatePhase label)
  | .phaseExited _ => some .exitPhase
  | .progressUpdated progress => some (.progress progress)
  | .labelUpdated text => some (.label text)
  | .warningDetected code message => some (.warning code message)
  | .knownErrorDetected code message => some (.knownError code message)
  | .findingEmitted finding => some (.finding finding)
  | .promptDetected prompt => some (.prompt prompt)
  | _ => none

def toldIn (log : List Event) : List InterpreterEvent := log.filterMap (fun e => e.body.told)

/-- Progress is normalized on its way. -/
def InterpreterEvent.normalized : InterpreterEvent → InterpreterEvent
  | .progress value => .progress value.normalize
  | ev => ev

/-- What the events of a job tell of what an interpreter has returned. -/
def relayOf (evs : List InterpreterEvent) : List InterpreterEvent :=
  (spokenOf evs).map InterpreterEvent.normalized

def InterpreterEvent.finding? : InterpreterEvent → Option Finding
  | .finding found => some found
  | _ => none

/-- What a driver has gathered that was told these events. -/
def gathered (evs : List InterpreterEvent) : DriverState where
  findings := evs.filterMap InterpreterEvent.finding?
  summary := lastSummary evs
  knownError := (evs.filterMap InterpreterEvent.error?).getLast?

/-- All that an interpreter has returned. -/
def returnedIn (acts : List Act) : List InterpreterEvent :=
  (repliesIn acts).flatMap InterpreterReply.events

theorem toldIn_append (log more : List Event) : toldIn (log ++ more) = toldIn log ++ toldIn more :=
  List.filterMap_append

theorem toldIn_single (e : Event) : toldIn [e] = e.body.told.toList := by
  rw [toldIn, List.filterMap_cons]
  cases e.body.told <;> rfl

/-- `Cancelled` tells nothing of an interpreter. -/
theorem toldIn_own (log : List Event) :
    toldIn (log.filter (fun e => !e.body.isCancelled)) = toldIn log := by
  rw [toldIn, List.filterMap_filter, toldIn]
  congr 1
  funext e
  cases hbody : e.body <;> simp [EventBody.isCancelled, EventBody.told]

theorem relayOf_append (evs more : List InterpreterEvent) :
    relayOf (evs ++ more) = relayOf evs ++ relayOf more := by
  rw [relayOf, spokenOf, List.filter_append, List.map_append]
  rfl

theorem returnedIn_append (acts more : List Act) :
    returnedIn (acts ++ more) = returnedIn acts ++ returnedIn more := by
  rw [returnedIn, repliesIn, List.filterMap_append, List.flatMap_append]
  rfl

/-! Findings and known errors can be read off either side. -/

theorem findingsOf_told (log : List Event) :
    findingsOf log = (toldIn log).filterMap InterpreterEvent.finding? := by
  rw [toldIn, List.filterMap_filterMap, findingsOf]
  congr 1
  funext e
  cases hbody : e.body <;> rfl

theorem knownErrorsOf_told (log : List Event) :
    knownErrorsOf log = (toldIn log).filterMap InterpreterEvent.error? := by
  rw [toldIn, List.filterMap_filterMap, knownErrorsOf]
  congr 1
  funext e
  cases hbody : e.body <;> rfl

theorem findings_relayOf (evs : List InterpreterEvent) :
    (relayOf evs).filterMap InterpreterEvent.finding? =
      evs.filterMap InterpreterEvent.finding? := by
  rw [relayOf, spokenOf, List.filterMap_map, List.filterMap_filter]
  congr 1
  funext ev
  cases ev <;> rfl

theorem errors_relayOf (evs : List InterpreterEvent) :
    (relayOf evs).filterMap InterpreterEvent.error? = evs.filterMap InterpreterEvent.error? := by
  rw [relayOf, spokenOf, List.filterMap_map, List.filterMap_filter]
  congr 1
  funext ev
  cases ev <;> rfl

/-- The outcome depends on what was gathered only. -/
theorem computeOutcome_gathered {state : DriverState} {evs : List InterpreterEvent}
    (hfindings : state.findings = evs.filterMap InterpreterEvent.finding?)
    (hsummary : state.summary = lastSummary evs)
    (hknown : state.knownError = (evs.filterMap InterpreterEvent.error?).getLast?)
    (cancelled timedOut : Bool) (exit : ExitCode) :
    computeOutcome cancelled timedOut exit state =
      computeOutcome cancelled timedOut exit (gathered evs) := by
  simp only [computeOutcome, gathered, hfindings, hsummary, hknown]

theorem findingsIn_eq_map (evs : List InterpreterEvent) :
    (gathered evs).findings.map (fun finding => { finding with time := 0 }) = findingsIn evs := by
  rw [gathered, List.map_filterMap, findingsIn]
  congr 1
  funext ev
  cases ev <;> rfl

theorem computeOutcome_success {cancelled timedOut : Bool} {exit : ExitCode}
    {state : DriverState} {summary : Option String} {findings : List Finding}
    (h : computeOutcome cancelled timedOut exit state = .succeeded summary findings) :
    exit.isSuccess = true := by
  unfold computeOutcome at h
  repeat' split at h
  all_goals first | assumption | cases h

theorem computeOutcome_failure {cancelled timedOut : Bool} {exit : ExitCode}
    {state : DriverState} {reason : FailureReason} {summary : Option String}
    {findings : List Finding}
    (h : computeOutcome cancelled timedOut exit state = .failed reason summary findings)
    (hreason : reason ≠ .timeout) : exit.isSuccess = false := by
  by_contra hsuccess
  unfold computeOutcome at h
  rw [if_pos (Bool.eq_true_of_not_eq_false hsuccess)] at h
  repeat' split at h
  all_goals cases h
  exact hreason rfl

namespace RuleInterpreter

theorem onLines_snoc (self : RuleInterpreter) (calls : List LineCall) (call : LineCall) :
    self.onLines (calls ++ [call]) =
      ((self.onLines calls).1 ++ [((self.onLines calls).2.onLine call.line call.now).1],
        ((self.onLines calls).2.onLine call.line call.now).2) := by
  induction calls generalizing self with
  | nil => rfl
  | cons first calls ih => simp only [List.cons_append, onLines, ih]

end RuleInterpreter

section Plays

variable {cfg : Config} {play next : Play} {act : Act} {acts : List Act}
  {evs : List InterpreterEvent} {start interp last : RuleInterpreter}

/-- What is announced without an error tells what was said. -/
theorem Announces.told {state : DriverState} {ev : InterpreterEvent} {body : EventBody}
    (h : Announces state ev body) (herror : body.isInterpreterError = false) :
    body.told = some ev.normalized ∧ ev.summaryText = none := by
  cases h <;> first | exact ⟨rfl, rfl⟩ | cases herror

theorem relayOf_cons {ev : InterpreterEvent} (h : ev.summaryText = none)
    (due : List InterpreterEvent) : relayOf (ev :: due) = ev.normalized :: relayOf due := by
  rw [relayOf, spokenOf, List.filter_cons_of_pos (by rw [h]; rfl), List.map_cons]
  rfl

theorem relayOf_spokenOf (evs : List InterpreterEvent) : relayOf (spokenOf evs) = relayOf evs := by
  rw [relayOf, relayOf, spokenOf, spokenOf, List.filter_filter]
  simp only [Bool.and_self]

theorem returnedIn_call (h : act.reply? = some (.ok evs)) : returnedIn [act] = evs := by
  rw [returnedIn, repliesIn, List.filterMap_cons_some h]
  exact List.append_nil evs

/-- What an act of a rule interpreter's job tells is no longer due, and what it returns is. -/
theorem Play.Step.relays (hstep : play.Step cfg act next) (henabled : play.enabled cfg = true)
    (hcoupled : Coupled interp play) (hanswer : interp.Answer act last) :
    toldIn (sentIn [act]) ++ relayOf next.stage.due =
      relayOf play.stage.due ++ relayOf (returnedIn [act]) := by
  obtain ⟨hnext, hflat⟩ := hcoupled.step henabled hstep hanswer
  cases hstep with
  | created _ _ hstage | started _ _ hstage | exited _ _ hstage => rw [hstage]; rfl
  | output stream text time hstage =>
      rw [hstage, if_pos henabled]
      rfl
  | onLine reply hstage | onExit reply hstage =>
      cases hanswer
      rw [hstage, returnedIn_call rfl]
      exact relayOf_spokenOf _
  | @said ev due final body time hstage h =>
      obtain ⟨htold, hspoken⟩ := h.told (hflat.noError _ (List.mem_singleton_self _))
      have hone : toldIn (sentIn [.sent { job := cfg.id, body, time }]) = [ev.normalized] := by
        rw [show sentIn [.sent _] = [_] from rfl, toldIn_single, htold]
        rfl
      rw [hstage, hone]
      exact ((List.append_nil _).trans (relayOf_cons hspoken due)).symm
  | panicked time hstage =>
      cases hcoupled with
      | events hstage' | line hstage' | finalized hstage' => rw [hstage] at hstage'; cases hstage'
  | closed time hstage hfinal hexit hstack =>
      -- a rule interpreter leaves no phase for the driver to close
      obtain ⟨hnames, hnone⟩ := hcoupled.settled hstage
      have hlast := hfinal.resolve_right (by rw [henabled]; exact Bool.false_ne_true.symm)
      rw [hnone hlast, DriverState.phaseNames, hstack] at hnames
      cases hnames
  | refused error time hstage | finalized _ _ time hstage => rw [hstage]; rfl

/-- The calls of a rule interpreter's job are those of a run of the interpreter, and
its replies what the run returns. -/
inductive Consults (start : RuleInterpreter) (acts : List Act) (play : Play)
    (interp : RuleInterpreter) : Prop where
  | reading (calls : List LineCall) (hstage : play.stage.isFinal = false)
      (hcalls : calls.map (fun call => (call.line.stream, call.line.text)) = calledOn acts)
      (hinterp : interp = (start.onLines calls).2)
      (hreturned : returnedIn acts = (start.onLines calls).1.flatten)
  | ended (calls : List LineCall) (exit now) (hstage : play.stage.isFinal = true)
      (hcalls : calls.map (fun call => (call.line.stream, call.line.text)) = calledOn acts)
      (hexit : play.exit = some exit)
      (hreturned : returnedIn acts = start.runEvents calls exit now)
  | refused (hstage : play.stage = .finalized) (hstarted : play.started = false)

theorem Consults.step (h : Consults start acts play interp) (hstep : play.Step cfg act next)
    (henabled : play.enabled cfg = true) (hcoupled : Coupled interp play)
    (hanswer : interp.Answer act last) : Consults start (acts ++ [act]) next last := by
  have hreturned_snoc := returnedIn_append acts [act]
  have hcalled_snoc := calledOn_append acts [act]
  cases h with
  | refused hstage => exact absurd hstage hstep.not_over
  | ended calls exit now hstage hcalls hexit hreturned =>
      have hquiet : returnedIn [act] = [] → calledOn [act] = [] → next.stage.isFinal = true →
          next.exit = play.exit → Consults start (acts ++ [act]) next last := by
        intro hreturns hcalled hfinal hsame
        rw [hreturns, List.append_nil] at hreturned_snoc
        rw [hcalled, List.append_nil] at hcalled_snoc
        exact .ended calls exit now hfinal (hcalls.trans hcalled_snoc.symm) (hsame.trans hexit)
          (hreturned_snoc.trans hreturned)
      cases hstep with
      | created _ _ h | started _ _ h | output _ _ _ h | exited _ _ h | onLine _ h | onExit _ h
      | refused _ _ h => rw [h] at hstage; cases hstage
      | said _ h | panicked _ h => exact hquiet rfl rfl (by rw [h] at hstage; exact hstage) rfl
      | closed | finalized => exact hquiet rfl rfl rfl rfl
  | reading calls hstage hcalls hinterp hreturned =>
      have hquiet : ∀ e, act = .sent e → next.stage.isFinal = false →
          Consults start (acts ++ [act]) next last := by
        rintro e rfl hopen
        rw [show returnedIn [.sent e] = [] from rfl, List.append_nil] at hreturned_snoc
        rw [show calledOn [.sent e] = [] from rfl, List.append_nil] at hcalled_snoc
        cases hanswer
        exact .reading calls hopen (hcalls.trans hcalled_snoc.symm) hinterp
          (hreturned_snoc.trans hreturned)
      cases hstep with
      | created _ _ h | started _ _ h | exited _ _ h => exact hquiet _ rfl (by rw [h]; rfl)
      | output _ _ _ h => exact hquiet _ rfl (by rw [if_pos henabled]; rfl)
      | said _ h | panicked _ h => exact hquiet _ rfl (by rw [h] at hstage; exact hstage)
      | refused => exact .refused rfl ‹_›
      | closed _ h hfinal | finalized _ _ _ h hfinal =>
          rw [h] at hstage
          cases hstage
          exact absurd henabled (by rw [hfinal.resolve_left Bool.false_ne_true]; decide)
      | @onLine ctx line reply h =>
          cases hanswer with
          | onLine _ _ time =>
              subst hinterp
              rw [returnedIn_call rfl, hreturned] at hreturned_snoc
              refine .reading (calls ++ [⟨line, time⟩]) rfl ?_ ?_ ?_
              · rw [hcalled_snoc, List.map_append, hcalls]
                rfl
              · rw [RuleInterpreter.onLines_snoc]
              · rw [hreturned_snoc, RuleInterpreter.onLines_snoc, List.flatten_append]
                exact congrArg _ (List.append_nil _).symm
      | @onExit ctx exit reply h _ hexit =>
          cases hanswer with
          | onExit _ _ time =>
              subst hinterp
              rw [returnedIn_call rfl, hreturned] at hreturned_snoc
              exact .ended calls exit time rfl
                (hcalls.trans (hcalled_snoc.trans (List.append_nil _)).symm) hexit hreturned_snoc

/-- A job with a rule interpreter, at the end of an accepted sequence. -/
structure Interprets (cfg : Config) (start : RuleInterpreter) (acts : List Act) (play : Play)
    (interp : RuleInterpreter) : Prop where
  flat : Flat cfg acts play interp
  relays : toldIn (sentIn acts) ++ relayOf play.stage.due = relayOf (returnedIn acts)
  consults : Consults start acts play interp

theorem Plays.interprets (hinterp : cfg.interpreter = true)
    (hstart : start.currentPhase = none) (h : Plays cfg acts play)
    (hanswers : start.Answers acts interp) : Interprets cfg start acts play interp := by
  induction h generalizing interp with
  | nil =>
      generalize hacts : [] = acts at hanswers
      cases hanswers with
      | nil =>
          exact ⟨Plays.nil.flat hinterp hstart .nil, rfl, .reading [] rfl rfl rfl rfl⟩
      | snoc =>
          exact absurd hacts.symm (List.append_ne_nil_of_right_ne_nil _ (List.cons_ne_nil _ _))
  | @snoc acts play act next hplays hstep ih =>
      have hflat := (hplays.snoc hstep).flat hinterp hstart hanswers
      generalize hacts : acts ++ [act] = acts' at hanswers
      cases hanswers with
      | nil => exact absurd hacts (List.append_ne_nil_of_right_ne_nil _ (List.cons_ne_nil _ _))
      | @snoc _ _ middle _ hbefore hanswer =>
          obtain ⟨rfl, hlast⟩ := List.append_inj' hacts rfl
          cases hlast
          obtain ⟨hmiddle, hrelays, hconsults⟩ := ih hbefore
          refine ⟨hflat, ?_, hconsults.step hstep hmiddle.enabled hmiddle.coupled hanswer⟩
          rw [sentIn_append, toldIn_append, List.append_assoc,
            hstep.relays hmiddle.enabled hmiddle.coupled hanswer, ← List.append_assoc, hrelays,
            returnedIn_append, relayOf_append]

end Plays

/-! The end of the job. -/

theorem Play.Step.finalized_frame {cfg : Config} {play next : Play} {e : Event}
    {outcome : Outcome} (h : play.Step cfg (.sent e) next) (hbody : e.body = .finalized outcome) :
    next.exit = play.exit ∧ next.started = play.started := by
  cases h with
  | said time hstage h => cases hbody; cases h
  | refused | finalized => exact ⟨rfl, rfl⟩
  | _ => cases hbody

/-- A job that has come to an outcome, told as a run of an interpreter that was given
`calls` and `exit` and has returned `evs`. -/
structure Sys.Tells (s : Sys) (outcome : Outcome) (calls : List LineCall) (exit : ExitCode)
    (evs : List InterpreterEvent) : Prop where
  lines : calls.map (fun call => (call.line.stream, call.line.text)) = outputsOf s.log
  exits : exitsOf s.log = [exit]
  told : toldIn s.log = relayOf evs
  outcome : ∃ cancelled timedOut, outcome = computeOutcome cancelled timedOut exit (gathered evs)

section Job

variable {cfg : Config} {ls : List Label} {s : Sys} {start interp : RuleInterpreter} {pid : Nat}
  {outcome : Outcome}

theorem Sys.exists_tells (hinterp : cfg.interpreter = true) (hfresh : start.currentPhase = none)
    (hrun : Transition.run (Sys.step cfg) (Sys.init cfg) ls = some s)
    (hanswers : start.Answers (actsOf cfg ls) interp)
    (hstarted : .jobStarted pid ∈ s.log.map Event.body)
    (hfinalized : .finalized outcome ∈ s.log.map Event.body) :
    ∃ calls exit now, s.Tells outcome calls exit (start.runEvents calls exit now) := by
  have hs : Sys.Reachable cfg s := ⟨ls, hrun⟩
  have hkeeps := acts_keep hrun
  obtain ⟨play, hplays⟩ := hkeeps.play
  have hown : ∀ e ∈ s.log, e.body.isCancelled = false → e ∈ sentIn (actsOf cfg ls) :=
    fun e he hbody => hkeeps.sent ▸ hs.mem_sent_iff.mpr ⟨he, hbody⟩
  obtain ⟨e₀, he₀, hbody₀⟩ := List.mem_map.mp hstarted
  obtain ⟨e, he, hbody⟩ := List.mem_map.mp hfinalized
  have hlast := hplays.interprets hinterp hfresh hanswers
  have hbegun : play.started = true :=
    hplays.remembers.2 e₀ (hown e₀ he₀ (by rw [hbody₀]; rfl)) pid hbody₀
  obtain ⟨before, at_, hacts, hbefore, hstep⟩ :=
    hplays.finalized (hown e he (by rw [hbody]; rfl)) hbody
  have hover : play.stage = .finalized := hstep.finalizes hbody
  have hdue := hlast.relays
  have hconsults := hlast.consults
  generalize actsOf cfg ls = acts at *
  cases hconsults with
  | reading calls hstage => rw [hover] at hstage; cases hstage
  | refused _ hnot => rw [hbegun] at hnot; cases hnot
  | ended calls exit now hstage hcalls hexit hreturned =>
      have htold : toldIn (sentIn acts) = relayOf (start.runEvents calls exit now) := by
        rw [← hreturned, ← hdue, hover]
        exact (List.append_nil _).symm
      have hbooks := stateAfter_account acts
      have hsame : stateAfter acts = at_.state := by
        rw [← hplays.state, hstep.state, DriverState.follow, DriverState.tell, hbody]
      rw [hsame, findingsOf_told, knownErrorsOf_told, htold, findings_relayOf, errors_relayOf,
        summaryOf, show (repliesIn acts).flatMap _ = returnedIn acts from rfl, hreturned] at hbooks
      obtain ⟨hfindings, hknown, hsummary⟩ := hbooks
      obtain ⟨hexit', hbegun'⟩ := hstep.finalized_frame hbody
      obtain ⟨cancelled, timedOut, found, hfound, rfl⟩ :=
        hstep.outcome hbody (hbegun'.symm.trans hbegun)
      rw [hexit', hfound] at hexit
      cases hexit
      have hall := hplays.lined.all hlast.flat.enabled
      rw [hover] at hall
      refine ⟨calls, exit, now, ?_, ?_, ?_, cancelled, timedOut, ?_⟩
      · rw [hcalls, ← outputsOf_own, ← hs.merged.own, hkeeps.sent, hall]
        exact (List.append_nil _).symm
      · rw [← exitsOf_own, ← hs.merged.own, hkeeps.sent, ← hplays.remembers.1, hexit', hfound]
        rfl
      · rw [← toldIn_own, ← hs.merged.own, hkeeps.sent, htold]
      · exact computeOutcome_gathered hfindings hsummary hknown cancelled timedOut exit

/-- A job with a rule interpreter that was started and has come to an outcome tells a run of
the interpreter: the lines and the exit are those of the log, the events are those of the
run in their order, and the outcome is computed from what the run has returned. -/
theorem rule_job_tells_run (hinterp : cfg.interpreter = true) {rules : List Rule}
    {phases : String → Option (F32 × F32)} {notes : Option NotesConfig}
    {fallback : Option FallbackPolicy}
    (hrun : Transition.run (Sys.step cfg) (Sys.init cfg) ls = some s)
    (hanswers : (RuleInterpreter.configured rules phases notes fallback).Answers
      (actsOf cfg ls) interp)
    (hstarted : .jobStarted pid ∈ s.log.map Event.body)
    (hfinalized : .finalized outcome ∈ s.log.map Event.body) :
    ∃ calls exit now, s.Tells outcome calls exit
      ((RuleInterpreter.configured rules phases notes fallback).runEvents calls exit now) :=
  Sys.exists_tells hinterp rfl hrun hanswers hstarted hfinalized

/-- The outcome of a job with a rule interpreter that was started, read off its lines: the
findings are its notes, the summary is the last one that was said on a visible line, and a
failure that is no timeout has for a reason the last error that a rule has recognised, or
else the one of the fallback, or else the exit. -/
theorem rule_job_outcome (hinterp : cfg.interpreter = true) {rules : List Rule}
    {phases : String → Option (F32 × F32)} {notes : Option NotesConfig}
    {fallback : Option FallbackPolicy}
    (hrun : Transition.run (Sys.step cfg) (Sys.init cfg) ls = some s)
    (hanswers : (RuleInterpreter.configured rules phases notes fallback).Answers
      (actsOf cfg ls) interp)
    (hstarted : .jobStarted pid ∈ s.log.map Event.body)
    (hfinalized : .finalized outcome ∈ s.log.map Event.body) :
    ∃ calls exit,
      calls.map (fun call => (call.line.stream, call.line.text)) = outputsOf s.log ∧
      exitsOf s.log = [exit] ∧
      outcome.findings.map (fun finding => { finding with time := 0 }) =
        RuleInterpreter.notesFindings notes calls ∧
      (∀ summary findings, outcome = .succeeded summary findings → exit.isSuccess = true ∧
        summary = RuleInterpreter.lastSaid rules notes calls) ∧
      ∀ reason summary findings, outcome = .failed reason summary findings →
        summary = RuleInterpreter.lastSaid rules notes calls ∧
        (reason ≠ .timeout → exit.isSuccess = false ∧
          reason = match RuleInterpreter.lastError rules notes fallback calls with
            | some (code, message) => .knownError code message
            | none => exit.reason) := by
  obtain ⟨calls, exit, now, htells⟩ := Sys.exists_tells hinterp rfl hrun hanswers hstarted
    hfinalized
  obtain ⟨cancelled, timedOut, rfl⟩ := htells.outcome
  have hsummary := RuleInterpreter.lastSummary_runEvents rules phases notes fallback calls exit now
  refine ⟨calls, exit, htells.lines, htells.exits, ?_, fun summary findings h => ?_,
    fun reason summary findings h => ?_⟩
  · rw [computeOutcome_findings, ← RuleInterpreter.findingsIn_runEvents rules phases notes
      fallback calls exit now]
    exact findingsIn_eq_map _
  · exact ⟨computeOutcome_success h, (computeOutcome_succeeded h).trans hsummary⟩
  · obtain ⟨hsame, hreason⟩ := computeOutcome_failed h
    refine ⟨hsame.trans hsummary, fun hne => ?_⟩
    have hexit := computeOutcome_failure h hne
    refine ⟨hexit, ?_⟩
    rw [hreason hne, ← RuleInterpreter.errors_runEvents rules phases notes fallback calls hexit now]
    rfl

end Job

theorem rule_job_tells_run_build : ∃ calls exit now,
    buildEnd.Tells (.succeeded none []) calls exit (buildRules.runEvents calls exit now) := by
  have hstarted : .jobStarted 1 ∈ buildEnd.log.map Event.body := by decide
  exact rule_job_tells_run rfl
    (Transition.run_endOf (Sys.init toldConfig) buildRun buildRun_runs)
    (.of_run (Transition.run_endOf buildRules (actsOf toldConfig buildRun) buildRun_answered))
    hstarted (by decide)

/-- A job that writes the line `x` to stderr and fails. -/
def stderrRun : List Label :=
  drive 12 ++ [.arrive .stderr [0x78, newline]] ++ drive 7 ++
    [.close .stdout .eof, .close .stderr .eof, .exitLeader .own (.exited 3), .wait .go {},
      .wait .child {}, .wait .go {}] ++ drive 10 ++
    [.driver { interp := .ok [.knownError "command_error" "x"] }] ++ drive 12

theorem stderrRun_runs :
    (Transition.run (Sys.step toldConfig) (Sys.init toldConfig) stderrRun).isSome = true := by
  decide

def stderrEnd : Sys := Transition.endOf _ _ stderrRun stderrRun_runs

/-- No rules, and the fallback. -/
def bareRules : RuleInterpreter :=
  .configured [] (fun _ => none) none (some {})

theorem stderrRun_answered :
    (Transition.run (RuleInterpreter.answer 0) bareRules (actsOf toldConfig stderrRun)).isSome =
      true := by
  decide

theorem rule_job_outcome_failing : ∃ calls : List LineCall,
    calls.map (fun call => (call.line.stream, call.line.text)) = [(.stderr, "x")] ∧
    ∃ exit : ExitCode, FailureReason.knownError "command_error" "x" =
      match RuleInterpreter.lastError [] none (some {}) calls with
      | some (code, message) => .knownError code message
      | none => exit.reason := by
  have hstarted : .jobStarted 1 ∈ stderrEnd.log.map Event.body := by decide
  have hfinalized : .finalized (.failed (.knownError "command_error" "x") none []) ∈
      stderrEnd.log.map Event.body := by decide
  obtain ⟨calls, exit, hlines, -, -, -, hfailed⟩ := rule_job_outcome rfl
    (Transition.run_endOf (Sys.init toldConfig) stderrRun stderrRun_runs)
    (.of_run (Transition.run_endOf bareRules (actsOf toldConfig stderrRun) stderrRun_answered))
    hstarted hfinalized
  have houtputs : outputsOf stderrEnd.log = [(.stderr, "x")] := by decide
  exact ⟨calls, hlines.trans houtputs, exit,
    ((hfailed _ _ _ rfl).2 FailureReason.noConfusion).2⟩

end Execra
