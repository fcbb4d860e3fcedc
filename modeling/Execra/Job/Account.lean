import Execra.Job.Calls

/-!
`Finalized` on the books. What the driver has gathered for the outcome can be
read off the events it has sent and the replies it was given: the findings and
the last known error are those of the events, the summary is that of the
replies, the exit is the one that was announced.
-/

namespace Execra

def findingsOf (log : List Event) : List Finding :=
  log.filterMap (fun e =>
    match e.body with
    | .findingEmitted finding => some finding
    | _ => none)

/-- The known errors of a log, code and message. -/
def knownErrorsOf (log : List Event) : List (String × String) :=
  log.filterMap (fun e =>
    match e.body with
    | .knownErrorDetected code message => some (code, message)
    | _ => none)

def Act.reply? : Act → Option InterpreterReply
  | .sent _ => none
  | .onLine _ _ reply => some reply
  | .onExit _ _ reply => some reply

/-- What the interpreter has replied, call by call. -/
def repliesIn (acts : List Act) : List InterpreterReply := acts.filterMap Act.reply?

/-- The events of a reply; a panic returns none. -/
def InterpreterReply.events : InterpreterReply → List InterpreterEvent
  | .ok evs => evs
  | .error _ => []

/-- The text of the last summary an interpreter has returned. -/
def summaryOf (replies : List InterpreterReply) : Option String :=
  lastSummary (replies.flatMap InterpreterReply.events)

def Outcome.findings : Outcome → List Finding
  | .succeeded _ findings => findings
  | .failed _ _ findings => findings
  | .cancelled findings => findings

/-- The reason a job fails with when no error was recognised. -/
def ExitCode.reason (exit : ExitCode) : FailureReason :=
  match exit.signal, exit.code with
  | some sig, _ => .signal sig
  | none, some code => .nonZeroExit code
  | none, none => .nonZeroExit (-1)

/-! The state of the driver. -/

/-- `Cancelled` is neither a finding nor a known error. -/
theorem findingsOf_own (log : List Event) :
    findingsOf (log.filter (fun e => !e.body.isCancelled)) = findingsOf log := by
  rw [findingsOf, List.filterMap_filter, findingsOf]
  congr 1
  funext e
  cases hbody : e.body <;> simp [EventBody.isCancelled]

theorem knownErrorsOf_own (log : List Event) :
    knownErrorsOf (log.filter (fun e => !e.body.isCancelled)) = knownErrorsOf log := by
  rw [knownErrorsOf, List.filterMap_filter, knownErrorsOf]
  congr 1
  funext e
  cases hbody : e.body <;> simp [EventBody.isCancelled]

theorem DriverState.tell_account (state : DriverState) (e : Event) :
    (state.tell e).findings = state.findings ++ findingsOf [e] ∧
      (state.tell e).knownError = (knownErrorsOf [e]).getLast?.or state.knownError ∧
      (state.tell e).summary = state.summary := by
  obtain ⟨job, body, time⟩ := e
  cases body with
  | phaseUpdated phase label =>
      rcases hstack : state.phaseStack with _ | ⟨top, rest⟩ <;>
        simp [DriverState.tell, findingsOf, knownErrorsOf, hstack]
  | _ => simp [DriverState.tell, findingsOf, knownErrorsOf]

theorem DriverState.hear_account (state : DriverState) (reply : InterpreterReply) :
    (state.hear reply).findings = state.findings ∧
      (state.hear reply).knownError = state.knownError ∧
      (state.hear reply).summary = (lastSummary reply.events).or state.summary := by
  cases reply <;> exact ⟨rfl, rfl, rfl⟩

/-- What one act adds to the books. -/
theorem DriverState.follow_account (state : DriverState) (act : Act) :
    (state.follow act).findings = state.findings ++ findingsOf (sentIn [act]) ∧
      (state.follow act).knownError =
        (knownErrorsOf (sentIn [act])).getLast?.or state.knownError ∧
      (state.follow act).summary = (summaryOf (repliesIn [act])).or state.summary := by
  cases act with
  | sent e => exact state.tell_account e
  | onLine ctx line reply | onExit ctx exit reply =>
      obtain ⟨hfindings, hknown, hsummary⟩ := state.hear_account reply
      refine ⟨hfindings.trans (List.append_nil _).symm, hknown, hsummary.trans ?_⟩
      simp [summaryOf, repliesIn, Act.reply?]

/-- What the acts make of the state, told by the events and the replies. -/
theorem stateAfter_account (acts : List Act) :
    (stateAfter acts).findings = findingsOf (sentIn acts) ∧
      (stateAfter acts).knownError = (knownErrorsOf (sentIn acts)).getLast? ∧
      (stateAfter acts).summary = summaryOf (repliesIn acts) := by
  induction acts using List.reverseRecOn with
  | nil => exact ⟨rfl, rfl, rfl⟩
  | append_singleton acts act ih =>
      obtain ⟨hfindings, hknown, hsummary⟩ := ih
      obtain ⟨hfindings', hknown', hsummary'⟩ := (stateAfter acts).follow_account act
      rw [stateAfter_append]
      refine ⟨hfindings'.trans ?_, hknown'.trans ?_, hsummary'.trans ?_⟩
      · rw [hfindings, sentIn_append, findingsOf, findingsOf, findingsOf, List.filterMap_append]
      · rw [hknown, sentIn_append, knownErrorsOf, knownErrorsOf, knownErrorsOf,
          List.filterMap_append, List.getLast?_append]
      · rw [hsummary, summaryOf, summaryOf, summaryOf, repliesIn, repliesIn, repliesIn,
          List.filterMap_append, List.flatMap_append, lastSummary_append]

/-! The end of the job. -/

section Plays

variable {cfg : Config} {play next : Play} {act : Act} {acts : List Act}

theorem Announces.isMetadata {state : DriverState} {ev : InterpreterEvent} {body : EventBody}
    (h : Announces state ev body) : body.isMetadata = true := by
  cases h <;> rfl

/-- Neither a job's start nor its exit is something an interpreter can say. -/
theorem EventBody.ends_of_metadata {body : EventBody} (h : body.isMetadata = true) (job : JobId)
    (time : SystemTime) : exitsOf [{ job, body, time }] = [] ∧ ∀ pid, body ≠ .jobStarted pid := by
  cases body <;> first | (cases h; done) | exact ⟨rfl, fun _ => nofun⟩

/-- The automaton remembers the start and the exit. -/
theorem Play.Step.remembers (h : play.Step cfg act next) :
    next.exit.toList = play.exit.toList ++ exitsOf (sentIn [act]) ∧
      (play.started = true → next.started = true) ∧
      ∀ e ∈ act.event?, ∀ pid, e.body = .jobStarted pid → next.started = true := by
  cases h with
  | started pid time hstage => exact ⟨(List.append_nil _).symm, fun _ => rfl, fun _ _ _ _ => rfl⟩
  | exited exit time hstage hfirst =>
      refine ⟨?_, id, fun e he pid hbody => ?_⟩
      · rw [hfirst]
        rfl
      · cases he
        cases hbody
  | said time hstage h =>
      obtain ⟨hexits, hstarted⟩ := EventBody.ends_of_metadata h.isMetadata cfg.id time
      refine ⟨?_, id, fun e he pid hbody => ?_⟩
      · change play.exit.toList = play.exit.toList ++ exitsOf [_]
        rw [hexits, List.append_nil]
      · cases he
        exact absurd hbody (hstarted pid)
  | onLine _ _ | onExit _ _ =>
      exact ⟨(List.append_nil _).symm, id, fun e he => nomatch he⟩
  | _ =>
      refine ⟨(List.append_nil _).symm, id, fun e he pid hbody => ?_⟩
      cases he
      cases hbody

theorem Plays.remembers (h : Plays cfg acts play) :
    play.exit.toList = exitsOf (sentIn acts) ∧
      ∀ e ∈ sentIn acts, ∀ pid, e.body = .jobStarted pid → play.started = true := by
  induction h with
  | nil => exact ⟨rfl, fun e he => absurd he List.not_mem_nil⟩
  | @snoc acts play act next _ hstep ih =>
      obtain ⟨hexit, hkept, hstarted⟩ := hstep.remembers
      refine ⟨?_, fun e he pid hbody => ?_⟩
      · rw [hexit, ih.1, sentIn_append, exitsOf, exitsOf, exitsOf, List.filterMap_append]
      · rw [sentIn_append] at he
        rcases List.mem_append.mp he with he | he
        · exact hkept (ih.2 e he pid hbody)
        · obtain ⟨act', hact, hevent⟩ := List.mem_filterMap.mp he
          rw [List.mem_singleton.mp hact] at hevent
          exact hstarted e hevent pid hbody

theorem Play.Step.finalizes {e : Event} {outcome : Outcome}
    (h : play.Step cfg (.sent e) next) (hbody : e.body = .finalized outcome) :
    next.stage = .finalized := by
  cases h with
  | said time hstage h => cases hbody; cases h
  | refused | finalized => rfl
  | _ => cases hbody

/-- `Finalized` is the last act. -/
theorem Plays.finalized (h : Plays cfg acts play) {e : Event} (he : e ∈ sentIn acts)
    {outcome : Outcome} (hbody : e.body = .finalized outcome) :
    ∃ before last, acts = before ++ [.sent e] ∧ Plays cfg before last ∧
      last.Step cfg (.sent e) play := by
  induction h with
  | nil => exact absurd he List.not_mem_nil
  | @snoc acts play act next hplays hstep ih =>
      rw [sentIn_append] at he
      rcases List.mem_append.mp he with he | he
      · obtain ⟨before, last, -, -, hlast⟩ := ih he
        exact absurd (hlast.finalizes hbody) hstep.not_over
      · obtain ⟨act', hact, hevent⟩ := List.mem_filterMap.mp he
        rw [List.mem_singleton.mp hact] at hevent
        cases act with
        | sent e' =>
            cases hevent
            exact ⟨acts, play, rfl, hplays, hstep⟩
        | _ => cases hevent

/-- With `Finalized` on the wire the automaton is at its end. -/
theorem Sys.Keeps.stage_finalized {s : Sys} (h : s.Keeps cfg acts) (hs : Sys.Reachable cfg s)
    (hplays : Plays cfg acts play) {outcome : Outcome}
    (hbody : .finalized outcome ∈ s.log.map Event.body) : play.stage = .finalized := by
  obtain ⟨e, he, hfinal⟩ := List.mem_map.mp hbody
  have hsent : e ∈ sentIn acts := h.sent ▸ hs.mem_sent_iff.mpr ⟨he, by rw [hfinal]; rfl⟩
  obtain ⟨before, last, -, -, hstep⟩ := hplays.finalized hsent hfinal
  exact hstep.finalizes hfinal

/-- The outcome of a started job is computed from what the acts before it have
gathered. -/
theorem Play.Step.outcome {e : Event} {outcome : Outcome} (h : play.Step cfg (.sent e) next)
    (hbody : e.body = .finalized outcome) (hstarted : play.started = true) :
    ∃ cancelled timedOut exit, play.exit = some exit ∧
      outcome = computeOutcome cancelled timedOut exit play.state := by
  cases h with
  | said time hstage h => cases hbody; cases h
  | refused error time hstage hnot => rw [hstarted] at hnot; cases hnot
  | finalized cancelled timedOut time hstage hfinal hexit hstack =>
      cases hbody
      exact ⟨cancelled, timedOut, _, hexit, rfl⟩
  | _ => cases hbody

end Plays

theorem computeOutcome_findings (cancelled timedOut : Bool) (exit : ExitCode)
    (state : DriverState) :
    (computeOutcome cancelled timedOut exit state).findings = state.findings := by
  unfold computeOutcome
  repeat' split
  all_goals rfl

theorem computeOutcome_succeeded {cancelled timedOut : Bool} {exit : ExitCode}
    {state : DriverState} {summary : Option String} {findings : List Finding}
    (h : computeOutcome cancelled timedOut exit state = .succeeded summary findings) :
    summary = state.summary := by
  unfold computeOutcome at h
  repeat' split at h
  all_goals cases h
  all_goals rfl

theorem computeOutcome_failed {cancelled timedOut : Bool} {exit : ExitCode}
    {state : DriverState} {reason : FailureReason} {summary : Option String}
    {findings : List Finding}
    (h : computeOutcome cancelled timedOut exit state = .failed reason summary findings) :
    summary = state.summary ∧ (reason ≠ .timeout →
      reason = match state.knownError with
        | some (code, message) => .knownError code message
        | none => exit.reason) := by
  unfold computeOutcome at h
  split at h
  · cases h
  · split at h
    · cases h
      exact ⟨rfl, fun hne => absurd rfl hne⟩
    · split at h
      · cases h
      · cases h
        refine ⟨rfl, fun _ => ?_⟩
        rcases state.knownError with _ | ⟨code, message⟩
        · unfold ExitCode.reason
          rcases exit with ⟨_ | code, _ | sig⟩ <;> rfl
        · rfl

/-- The `Finalized` of a started job carries what the events and the replies
before it tell: all findings in their order, the last summary, and as the reason
of a failure the last known error or else the exit that was announced. -/
theorem outcome_told_by_events {cfg : Config} {ls : List Label} {s : Sys}
    (hrun : Transition.run (Sys.step cfg) (Sys.init cfg) ls = some s) {pid : Nat}
    (hstarted : .jobStarted pid ∈ s.log.map Event.body) {outcome : Outcome}
    (hfinalized : .finalized outcome ∈ s.log.map Event.body) :
    outcome.findings = findingsOf s.log ∧
    (∀ summary findings, outcome = .succeeded summary findings →
      summary = summaryOf (repliesIn (actsOf cfg ls))) ∧
    ∀ reason summary findings, outcome = .failed reason summary findings →
      summary = summaryOf (repliesIn (actsOf cfg ls)) ∧
      (reason ≠ .timeout → ∃ exit, exitsOf s.log = [exit] ∧
        reason = match (knownErrorsOf s.log).getLast? with
          | some (code, message) => .knownError code message
          | none => exit.reason) := by
  have hs : Sys.Reachable cfg s := ⟨ls, hrun⟩
  have hkeeps := acts_keep hrun
  obtain ⟨play, hplays⟩ := hkeeps.play
  have hown : ∀ e ∈ s.log, e.body.isCancelled = false → e ∈ sentIn (actsOf cfg ls) :=
    fun e he hbody => hkeeps.sent ▸ hs.mem_sent_iff.mpr ⟨he, hbody⟩
  obtain ⟨e₀, he₀, hbody₀⟩ := List.mem_map.mp hstarted
  obtain ⟨e, he, hbody⟩ := List.mem_map.mp hfinalized
  obtain ⟨before, last, hacts, hbefore, hstep⟩ :=
    hplays.finalized (hown e he (by rw [hbody]; rfl)) hbody
  have hsent : s.sent = sentIn before ++ [e] := by
    rw [hkeeps.sent, hacts, sentIn_append]
    rfl
  have hfindings : findingsOf s.log = findingsOf (sentIn before) := by
    rw [← findingsOf_own, ← hs.merged.own, hsent, findingsOf, List.filterMap_append,
      List.filterMap_cons, hbody]
    exact List.append_nil _
  have hknown : knownErrorsOf s.log = knownErrorsOf (sentIn before) := by
    rw [← knownErrorsOf_own, ← hs.merged.own, hsent, knownErrorsOf, List.filterMap_append,
      List.filterMap_cons, hbody]
    exact List.append_nil _
  have hexits : exitsOf s.log = exitsOf (sentIn before) := by
    rw [← exitsOf_own, ← hs.merged.own, hsent, exitsOf, List.filterMap_append,
      List.filterMap_cons, hbody]
    exact List.append_nil _
  have hreplies : repliesIn (actsOf cfg ls) = repliesIn before := by
    rw [hacts, repliesIn, List.filterMap_append]
    exact List.append_nil _
  have hmem : e₀ ∈ sentIn before := by
    have hall := hown e₀ he₀ (by rw [hbody₀]; rfl)
    rw [← hkeeps.sent, hsent] at hall
    refine (List.mem_append.mp hall).resolve_right (fun hlast => ?_)
    rw [List.mem_singleton.mp hlast, hbody] at hbody₀
    cases hbody₀
  obtain ⟨hexit, hremembers⟩ := hbefore.remembers
  obtain ⟨cancelled, timedOut, exit, hlast, rfl⟩ :=
    hstep.outcome hbody (hremembers e₀ hmem pid hbody₀)
  obtain ⟨hstateFindings, hstateKnown, hstateSummary⟩ := stateAfter_account before
  rw [← hbefore.state] at hstateFindings hstateKnown hstateSummary
  refine ⟨?_, fun summary findings h => ?_, fun reason summary findings h => ?_⟩
  · rw [computeOutcome_findings, hstateFindings, hfindings]
  · rw [computeOutcome_succeeded h, hstateSummary, hreplies]
  · obtain ⟨hsummary, hreason⟩ := computeOutcome_failed h
    refine ⟨by rw [hsummary, hstateSummary, hreplies], fun hne => ⟨exit, ?_, ?_⟩⟩
    · rw [hexits, ← hexit, hlast]
      rfl
    · rw [hreason hne, hstateKnown, hknown]

/-- A command with an interpreter. -/
def toldConfig : Config := { plainConfig with interpreter := true }

def diskFull : Finding := { severity := .error, code := "E42", message := "disk full", time := 4 }

/-- The interpreter answers a line with a finding, a summary and a known error,
panics at the next one, and the child fails. -/
def toldRun : List Label :=
  drive 12 ++ [.arrive .stdout [0x78, newline]] ++ drive 5 ++
    [.driver { interp := .ok [.finding diskFull, .summary "half done",
      .knownError "E42" "disk full"] }] ++ drive 7 ++
    [.arrive .stderr [0x79, newline]] ++ drive 5 ++ [.driver { interp := .error "boom" }] ++
    drive 3 ++ [.close .stdout .eof, .close .stderr .eof, .exitLeader .own (.exited 3),
      .wait .go {}, .wait .child {}, .wait .go {}] ++ drive 18

theorem toldRun_runs :
    (Transition.run (Sys.step toldConfig) (Sys.init toldConfig) toldRun).isSome = true := by
  decide

def toldEnd : Sys := Transition.endOf _ _ toldRun toldRun_runs

theorem outcome_told_by_events_told :
    .finalized (.failed (.knownError "E42" "disk full") (some "half done") [diskFull]) ∈
        toldEnd.log.map Event.body ∧
      [diskFull] = findingsOf toldEnd.log ∧
      some "half done" = summaryOf (repliesIn (actsOf toldConfig toldRun)) := by
  have hmem : .finalized (.failed (.knownError "E42" "disk full") (some "half done") [diskFull]) ∈
      toldEnd.log.map Event.body := by
    decide
  have hstarted : .jobStarted 1 ∈ toldEnd.log.map Event.body := by decide
  obtain ⟨hfindings, -, hfailed⟩ := outcome_told_by_events
    (Transition.run_endOf (Sys.init toldConfig) toldRun toldRun_runs) hstarted hmem
  exact ⟨hmem, hfindings, (hfailed _ _ _ rfl).1⟩

end Execra
