import Execra.Job.Isolation
import Execra.Model.Interpret

/-!
The rule interpreter on the driver's phase stack. The interpreter keeps the
name of one current phase; the driver keeps a stack. As long as the events of
the interpreter's last answer are being sent the two may differ, and `flatStep`
says how the rest of the answer brings them together again.
-/

namespace Execra

/-- A phase stack that holds one phase at most, and refuses an event the driver
would answer with an error or a second phase. -/
def flatStep : Option String → InterpreterEvent → Option (Option String)
  | none, .enterPhase name _ => some (some name)
  | some _, .enterPhase .. => none
  | some _, .exitPhase => some none
  | none, .exitPhase | none, .updatePhase _ => none
  | phase, _ => some phase

/-- The phase stack after the events, if they were all fit for it. -/
def flatAfter (phase : Option String) (evs : List InterpreterEvent) : Option (Option String) :=
  Transition.run flatStep phase evs

/-! What the interpreter answers. -/

theorem flatAfter_append (phase : Option String) (evs more : List InterpreterEvent) :
    flatAfter phase (evs ++ more) =
      (flatAfter phase evs).bind (fun middle => flatAfter middle more) :=
  Transition.run_append phase evs more

/-- An event that has nothing to do with phases. -/
def InterpreterEvent.isPhaseless : InterpreterEvent → Bool
  | .enterPhase .. | .updatePhase _ | .exitPhase => false
  | _ => true

theorem flatStep_phaseless {ev : InterpreterEvent} (h : ev.isPhaseless = true)
    (phase : Option String) : flatStep phase ev = some phase := by
  cases ev <;> first | (cases h; done) | (cases phase <;> rfl)

theorem flatAfter_phaseless {evs : List InterpreterEvent} (h : evs.all InterpreterEvent.isPhaseless)
    (phase : Option String) : flatAfter phase evs = some phase := by
  induction evs with
  | nil => rfl
  | cons ev evs ih =>
      rw [List.all_cons, Bool.and_eq_true] at h
      rw [flatAfter, Transition.run_cons, flatStep_phaseless h.1]
      exact ih h.2

/-- Summaries are not sent, and the phases do not need them. -/
theorem flatAfter_spokenOf (phase : Option String) (evs : List InterpreterEvent) :
    flatAfter phase (spokenOf evs) = flatAfter phase evs := by
  induction evs generalizing phase with
  | nil => rfl
  | cons ev evs ih =>
      cases ev with
      | summary text =>
          rw [flatAfter, flatAfter, Transition.run_cons, flatStep_phaseless rfl]
          exact ih phase
      | _ =>
          simp only [flatAfter, spokenOf, InterpreterEvent.summaryText, List.filter_cons,
            Option.isNone_none, if_true, Transition.run_cons]
          exact Option.bind_congr (fun next _ => ih next)

namespace RuleInterpreter

variable (interp : RuleInterpreter)

theorem flushNotes_phase (time : SystemTime) :
    (interp.flushNotes time).1.all InterpreterEvent.isPhaseless ∧
      (interp.flushNotes time).2.currentPhase = interp.currentPhase := by
  unfold flushNotes
  split <;> exact ⟨rfl, rfl⟩

theorem fallbackEvents_phase (exit : ExitCode) :
    (interp.fallbackEvents exit).1.all InterpreterEvent.isPhaseless = true ∧
      (interp.fallbackEvents exit).2.currentPhase = interp.currentPhase := by
  obtain ⟨_, _, _, fallback, _, _, _, emitted, failed, lastStderr⟩ := interp
  rcases fallback with _ | ⟨_, fromFailedLine, fromStderr⟩
  · exact ⟨rfl, rfl⟩
  · unfold fallbackEvents
    rcases hquiet : (exit.isSuccess || emitted)
    · simp only [Bool.false_eq_true, if_false]
      cases fromFailedLine <;> cases fromStderr <;> cases failed <;> cases lastStderr <;>
        exact ⟨rfl, rfl⟩
    · simp only [if_true]
      exact ⟨rfl, trivial⟩

/-- Closing the current phase leaves none. -/
theorem exitCurrent_phase : flatAfter interp.currentPhase interp.exitCurrent = some none := by
  unfold exitCurrent
  rcases interp.currentPhase with _ | prev
  · rfl
  · rcases hrange : interp.phases prev with _ | ⟨start, stop⟩ <;> simp only [hrange] <;> rfl

theorem apply_phase (caps : Captures) (action : RuleAction) :
    flatAfter interp.currentPhase (interp.apply caps action).1 =
      some (interp.apply caps action).2.currentPhase := by
  cases action with
  | enterPhase name labelTemplate =>
      rw [apply, flatAfter_append, interp.exitCurrent_phase]
      rcases interp.phases name with _ | ⟨start, stop⟩ <;> simp only <;> rfl
  | byteProgressMb =>
      rw [apply]
      repeat' split
      all_goals exact flatAfter_phaseless (by rfl) _
  | _ => exact flatAfter_phaseless rfl _

theorem dispatch_phase (text : String) :
    flatAfter interp.currentPhase (interp.dispatch text).1 =
      some (interp.dispatch text).2.currentPhase := by
  unfold dispatch
  rcases firstMatch text interp.rules with _ | ⟨action, caps⟩
  · rcases interp.fallback with _ | fb
    · rfl
    · simp only
      split <;> rfl
  · exact interp.apply_phase caps action

theorem classify_phase (line : Line) :
    flatAfter interp.currentPhase (interp.classify line).1 =
      some (interp.classify line).2.currentPhase := by
  unfold classify
  split
  · rfl
  · split
    · exact dispatch_phase { interp with lastStderr := some line.text } line.text
    · exact interp.dispatch_phase line.text

theorem onLine_phase (line : Line) (time : SystemTime) :
    flatAfter interp.currentPhase (interp.onLine line time).1 =
      some (interp.onLine line time).2.currentPhase := by
  obtain ⟨hquiet, hkept⟩ := interp.flushNotes_phase time
  unfold onLine
  split
  · split
    · split
      · rfl
      · split
        · rw [hkept]
          exact flatAfter_phaseless hquiet _
        · rfl
    · split
      · rfl
      · exact interp.classify_phase line
  · exact interp.classify_phase line

/-- The exit call closes the current phase. -/
theorem onExit_phase (exit : ExitCode) (time : SystemTime) :
    flatAfter interp.currentPhase (interp.onExit exit time).1 = some none ∧
      (interp.onExit exit time).2.currentPhase = none := by
  obtain ⟨hflushed, hkept⟩ := interp.flushNotes_phase time
  unfold onExit
  generalize interp.flushNotes time = flushed at hflushed hkept ⊢
  obtain ⟨hquiet, hnone⟩ := fallbackEvents_phase { flushed.2 with currentPhase := none } exit
  refine ⟨?_, hnone⟩
  rw [flatAfter_append, flatAfter_append, flatAfter_phaseless hflushed, ← hkept, Option.bind_some,
    exitCurrent_phase, Option.bind_some]
  exact flatAfter_phaseless hquiet none

/-- An act whose call, if it is one, the interpreter answers. -/
inductive Answer : Act → RuleInterpreter → Prop where
  | sent (e) : Answer (.sent e) interp
  | onLine (ctx line time) :
      Answer (.onLine ctx line (.ok (interp.onLine line time).1)) (interp.onLine line time).2
  | onExit (ctx exit time) :
      Answer (.onExit ctx exit (.ok (interp.onExit exit time).1)) (interp.onExit exit time).2

/-- Acts whose calls one interpreter answers, one after the other. -/
inductive Answers : List Act → RuleInterpreter → Prop where
  | nil : Answers [] interp
  | snoc {acts act middle last} (h : Answers acts middle) (hanswer : middle.Answer act last) :
      Answers (acts ++ [act]) last

/-- The interpreter after an act, if the reply in it is the interpreter's own with
the clock at `time`. -/
def answer (time : SystemTime) (interp : RuleInterpreter) : Act → Option RuleInterpreter
  | .sent _ => some interp
  | .onLine _ line reply =>
      let answered := interp.onLine line time
      if reply = .ok answered.1 then some answered.2 else none
  | .onExit _ exit reply =>
      let answered := interp.onExit exit time
      if reply = .ok answered.1 then some answered.2 else none

theorem Answers.of_run {interp last : RuleInterpreter} {time : SystemTime} {acts : List Act}
    (h : Transition.run (answer time) interp acts = some last) : interp.Answers acts last := by
  induction acts using List.reverseRecOn generalizing last with
  | nil => cases h; exact .nil
  | append_singleton acts act ih =>
      obtain ⟨middle, hbefore, hact⟩ := (Transition.run_snoc_iff ..).mp h
      refine (ih hbefore).snoc ?_
      cases act with
      | sent e => cases hact; exact .sent e
      | onLine ctx line reply | onExit ctx exit reply =>
          unfold answer at hact
          obtain ⟨rfl, hlast⟩ := Option.ite_none_right_eq_some.mp hact
          cases hlast
          constructor

end RuleInterpreter

/-! The marks of the phases. -/

/-- Whether an event opens a phase or closes one. -/
def EventBody.phaseMark : EventBody → Option Bool
  | .phaseEntered .. => some true
  | .phaseExited _ => some false
  | _ => none

def InterpreterEvent.phaseMark : InterpreterEvent → Option Bool
  | .enterPhase .. => some true
  | .exitPhase => some false
  | _ => none

def EventBody.isInterpreterError : EventBody → Bool
  | .interpreterError .. => true
  | _ => false

def phaseMarks (log : List Event) : List Bool := log.filterMap (fun e => e.body.phaseMark)

theorem phaseMarks_single (e : Event) : phaseMarks [e] = e.body.phaseMark.toList := by
  rw [phaseMarks, List.filterMap_cons]
  cases e.body.phaseMark <;> rfl

/-- The marks of all events an interpreter has returned. -/
def marksAsked (acts : List Act) : List Bool :=
  ((repliesIn acts).flatMap InterpreterReply.events).filterMap InterpreterEvent.phaseMark

/-- `Cancelled` has no part in the phases. -/
theorem phaseMarks_own (log : List Event) :
    phaseMarks (log.filter (fun e => !e.body.isCancelled)) = phaseMarks log := by
  rw [phaseMarks, List.filterMap_filter, phaseMarks]
  congr 1
  funext e
  cases hbody : e.body <;> simp [EventBody.isCancelled, EventBody.phaseMark]

theorem marksAsked_single {act : Act} {evs : List InterpreterEvent}
    (h : act.reply? = some (.ok evs)) :
    marksAsked [act] = evs.filterMap InterpreterEvent.phaseMark := by
  rw [marksAsked, repliesIn, List.filterMap_cons_some h]
  exact congrArg _ (List.append_nil evs)

/-- Phases are opened and closed in turn. -/
def Alternate (marks : List Bool) : Prop := (false :: marks).IsChain (· ≠ ·)

/-- A phase is opened if none is open, and closed if one is. -/
def toggle (isOpen mark : Bool) : Option Bool := if mark = isOpen then none else some mark

theorem isChain_of_toggle {isOpen last : Bool} {marks : List Bool}
    (h : Transition.run toggle isOpen marks = some last) :
    (isOpen :: marks).IsChain (· ≠ ·) := by
  induction marks generalizing isOpen with
  | nil => exact .singleton _
  | cons mark marks ih =>
      obtain ⟨middle, hmark, hrest⟩ := Option.bind_eq_some_iff.mp h
      unfold toggle at hmark
      split at hmark
      · cases hmark
      · next hne =>
          cases hmark
          exact .cons_cons (fun heq => hne heq.symm) (ih hrest)

theorem flatStep_mark {phase next : Option String} {ev : InterpreterEvent}
    (h : flatStep phase ev = some next) :
    Transition.run toggle phase.isSome ev.phaseMark.toList = some next.isSome := by
  cases ev <;> cases phase <;> cases h <;> rfl

theorem flatAfter_marks {phase last : Option String} {evs : List InterpreterEvent}
    (h : flatAfter phase evs = some last) :
    Transition.run toggle phase.isSome (evs.filterMap InterpreterEvent.phaseMark) =
      some last.isSome := by
  induction evs generalizing phase with
  | nil => cases h; rfl
  | cons ev evs ih =>
      obtain ⟨middle, hev, hrest⟩ := Option.bind_eq_some_iff.mp h
      rw [← List.singleton_append, List.filterMap_append, Transition.run_append]
      have hmark := flatStep_mark hev
      have hone : [ev].filterMap InterpreterEvent.phaseMark = ev.phaseMark.toList := by
        cases ev <;> rfl
      rw [hone, hmark]
      exact ih hrest

/-! The coupling. -/

def DriverState.phaseNames (state : DriverState) : List String :=
  state.phaseStack.map Phase.name

def DriverState.inPhase (state : DriverState) : Bool := !state.phaseStack.isEmpty

theorem DriverState.inPhase_of_names {state : DriverState} {phase : Option String}
    (h : state.phaseNames = phase.toList) : state.inPhase = phase.isSome := by
  cases phase with
  | none => rw [inPhase, List.map_eq_nil_iff.mp h]; rfl
  | some name =>
      obtain ⟨top, hstack, -⟩ := List.map_eq_singleton_iff.mp h
      rw [inPhase, hstack]
      rfl

/-- An event fit for a stack of at most one phase is announced as such, and moves
the stack as `flatStep` does. -/
theorem Announces.flat {state : DriverState} {ev : InterpreterEvent} {body : EventBody}
    (h : Announces state ev body) {job : JobId} {time : SystemTime} {phase next : Option String}
    (hnames : state.phaseNames = phase.toList) (hstep : flatStep phase ev = some next) :
    (state.tell { job, body, time }).phaseNames = next.toList ∧
      body.phaseMark = ev.phaseMark ∧ body.isInterpreterError = false := by
  cases phase with
  | none =>
      have hstack : state.phaseStack = [] := List.map_eq_nil_iff.mp hnames
      cases h with
      | updatePhase _ h | exitPhase h => rw [hstack] at h; cases h
      | updateNone | exitNone => cases hstep
      | enterPhase id name label =>
          cases hstep
          refine ⟨?_, rfl, rfl⟩
          simp [DriverState.phaseNames, DriverState.tell, hstack]
      | _ => cases hstep; exact ⟨hnames, rfl, rfl⟩
  | some name =>
      obtain ⟨top, hstack, rfl⟩ := List.map_eq_singleton_iff.mp hnames
      cases h with
      | updateNone _ h | exitNone h => rw [hstack] at h; cases h
      | enterPhase => cases hstep
      | updatePhase label h | exitPhase h =>
          cases hstep
          refine ⟨?_, rfl, rfl⟩
          simp [DriverState.phaseNames, DriverState.tell, hstack]
      | _ => cases hstep; exact ⟨hnames, rfl, rfl⟩

section Plays

variable {cfg : Config} {play next : Play} {act : Act} {acts : List Act}
  {interp last : RuleInterpreter}

/-- The interpreter and the driver between two acts. The rest of the answer that
is being sent leads from the driver's phase to the interpreter's. -/
inductive Coupled (interp : RuleInterpreter) (play : Play) : Prop where
  | events {due final phase} (hstage : play.stage = .events due final)
      (hnames : play.state.phaseNames = phase.toList)
      (hdue : flatAfter phase due = some interp.currentPhase)
      (hfinal : final = true → interp.currentPhase = none)
  | line {l} (hstage : play.stage = .line l)
      (hnames : play.state.phaseNames = interp.currentPhase.toList)
  | finalized (hstage : play.stage = .finalized)
      (hnames : play.state.phaseNames = interp.currentPhase.toList)

/-- With nothing left to send, the two agree. -/
theorem Coupled.settled (h : Coupled interp play) {final : Bool}
    (hstage : play.stage = .events [] final) :
    play.state.phaseNames = interp.currentPhase.toList ∧
      (final = true → interp.currentPhase = none) := by
  cases h with
  | events hstage' hnames hdue hfinal =>
      rw [hstage] at hstage'
      cases hstage'
      cases hdue
      exact ⟨hnames, hfinal⟩
  | line hstage' | finalized hstage' => rw [hstage] at hstage'; cases hstage'

theorem Coupled.waiting (h : Coupled interp play) {l : Line} (hstage : play.stage = .line l) :
    play.state.phaseNames = interp.currentPhase.toList := by
  cases h with
  | line _ hnames => exact hnames
  | events hstage' | finalized hstage' => rw [hstage] at hstage'; cases hstage'

theorem Coupled.finished (h : Coupled interp play) (hstage : play.stage = .finalized) :
    play.state.phaseNames = interp.currentPhase.toList := by
  cases h with
  | finalized _ hnames => exact hnames
  | events hstage' | line hstage' => rw [hstage] at hstage'; cases hstage'

theorem Coupled.depth (h : Coupled interp play) : play.state.phaseStack.length ≤ 1 := by
  have hone : ∀ phase : Option String, play.state.phaseNames = phase.toList →
      play.state.phaseStack.length ≤ 1 := by
    intro phase hnames
    rw [← List.length_map (f := Phase.name), show play.state.phaseStack.map _ = _ from hnames]
    exact phase.length_toList_le
  cases h with
  | events _ hnames | line _ hnames | finalized _ hnames => exact hone _ hnames

/-- A context shows the one phase there may be. -/
theorem Context.Shows.flat {ctx : Context} {state : DriverState} (h : ctx.Shows cfg state)
    {phase : Option String} (hnames : state.phaseNames = phase.toList) :
    ctx.phaseStack.map Phase.name = phase.toList := by
  rw [h.phaseStack, List.map_reverse, show state.phaseStack.map _ = _ from hnames]
  cases phase <;> rfl

/-- What a step sends is no error, and its phase events come in turn. -/
structure Act.Flat (act : Act) (state after : DriverState) : Prop where
  noError : ∀ e ∈ sentIn [act], e.body.isInterpreterError = false
  turns : Transition.run toggle state.inPhase (phaseMarks (sentIn [act])) = some after.inPhase

/-- An act that is no event of an interpreter. -/
private theorem flat_of_quiet {e : Event} (hmark : e.body.phaseMark = none)
    (herror : e.body.isInterpreterError = false) (state : DriverState) :
    (Act.sent e).Flat state state where
  noError := List.forall_mem_singleton.mpr herror
  turns := by
    have hnone : phaseMarks (sentIn [.sent e]) = [] := by
      rw [show sentIn [.sent e] = [e] from rfl, phaseMarks_single, hmark]
      rfl
    rw [hnone]
    rfl

private theorem flat_of_call {act : Act} (hcall : sentIn [act] = []) {state after : DriverState}
    (hstack : after.phaseStack = state.phaseStack) : act.Flat state after where
  noError := by rw [hcall]; exact List.forall_mem_nil _
  turns := by rw [hcall, DriverState.inPhase, DriverState.inPhase, hstack]; rfl

theorem Coupled.step (h : Coupled interp play) (henabled : play.enabled cfg = true)
    (hstep : play.Step cfg act next) (hanswer : interp.Answer act last) :
    Coupled last next ∧ act.Flat play.state next.state := by
  cases hstep with
  | created command time hstage | started pid time hstage | exited exit time hstage hfirst =>
      cases hanswer
      obtain ⟨hnames, hfinal⟩ := h.settled hstage
      exact ⟨.events hstage hnames rfl hfinal, flat_of_quiet rfl rfl _⟩
  | output stream text time hstage =>
      cases hanswer
      obtain ⟨hnames, -⟩ := h.settled hstage
      refine ⟨.line (l := { stream, text, time }) ?_ hnames, flat_of_quiet rfl rfl _⟩
      exact if_pos henabled
  | @onLine _ l reply hstage _ hctx =>
      cases hanswer with
      | onLine _ _ time =>
          cases h with
          | line hstage' hnames =>
              refine ⟨.events rfl hnames ?_ (fun h => absurd h Bool.false_ne_true),
                flat_of_call rfl rfl⟩
              rw [flatAfter_spokenOf]
              exact interp.onLine_phase l time
          | events hstage' | finalized hstage' => rw [hstage] at hstage'; cases hstage'
  | @onExit _ exit reply hstage _ hexit hctx =>
      cases hanswer with
      | onExit _ _ time =>
          obtain ⟨hnames, -⟩ := h.settled hstage
          obtain ⟨hdue, hnone⟩ := interp.onExit_phase exit time
          refine ⟨.events rfl hnames ?_ (fun _ => hnone), flat_of_call rfl rfl⟩
          rw [flatAfter_spokenOf, hnone]
          exact hdue
  | @said ev due final body time hstage hannounces =>
      cases hanswer
      cases h with
      | events hstage' hnames hdue hfinal =>
          rw [hstage] at hstage'
          cases hstage'
          obtain ⟨middle, hev, hrest⟩ := Option.bind_eq_some_iff.mp hdue
          obtain ⟨hafter, hmark, herror⟩ := hannounces.flat hnames hev
          refine ⟨.events rfl hafter hrest hfinal, List.forall_mem_singleton.mpr herror, ?_⟩
          have hmarks : phaseMarks (sentIn [.sent { job := cfg.id, body, time }]) =
              ev.phaseMark.toList := by
            rw [← hmark]
            exact phaseMarks_single _
          rw [hmarks, DriverState.inPhase_of_names hnames, DriverState.inPhase_of_names hafter]
          exact flatStep_mark hev
      | line hstage' | finalized hstage' => rw [hstage] at hstage'; cases hstage'
  | panicked time hstage =>
      cases h with
      | events hstage' | line hstage' | finalized hstage' => rw [hstage] at hstage'; cases hstage'
  | closed time hstage hfinal hexit hstack =>
      -- the exit call has left no phase open
      obtain ⟨hnames, hnone⟩ := h.settled hstage
      have hlast := hfinal.resolve_right (by rw [henabled]; exact Bool.false_ne_true.symm)
      rw [hnone hlast, DriverState.phaseNames, hstack] at hnames
      cases hnames
  | refused error time hstage hstarted =>
      cases hanswer
      exact ⟨.finalized rfl (h.settled hstage).1, flat_of_quiet rfl rfl _⟩
  | finalized _ _ time hstage hfinal hexit hstack =>
      cases hanswer
      exact ⟨.finalized rfl (h.settled hstage).1, flat_of_quiet rfl rfl _⟩

/-- A job with a rule interpreter, at the end of an accepted sequence. -/
structure Flat (cfg : Config) (acts : List Act) (play : Play) (interp : RuleInterpreter) :
    Prop where
  enabled : play.enabled cfg = true
  coupled : Coupled interp play
  noError : ∀ e ∈ sentIn acts, e.body.isInterpreterError = false
  turns : Transition.run toggle false (phaseMarks (sentIn acts)) = some play.state.inPhase
  asked : Transition.run toggle false (marksAsked acts) = some interp.currentPhase.isSome

theorem RuleInterpreter.Answer.asked (h : interp.Answer act last) :
    Transition.run toggle interp.currentPhase.isSome (marksAsked [act]) =
      some last.currentPhase.isSome := by
  cases h with
  | sent e => rfl
  | onLine ctx line time =>
      rw [marksAsked_single rfl]
      exact flatAfter_marks (interp.onLine_phase line time)
  | onExit ctx exit time =>
      obtain ⟨hdue, hnone⟩ := interp.onExit_phase exit time
      rw [marksAsked_single rfl, hnone]
      exact flatAfter_marks hdue

theorem RuleInterpreter.Answer.panic (h : interp.Answer act last) : act.panic? = none := by
  cases h <;> rfl

theorem Plays.flat (hinterp : cfg.interpreter = true) {start : RuleInterpreter}
    (hstart : start.currentPhase = none) (h : Plays cfg acts play)
    (hanswers : start.Answers acts interp) : Flat cfg acts play interp := by
  induction h generalizing interp with
  | nil =>
      generalize hacts : [] = acts at hanswers
      cases hanswers with
      | nil =>
          have hphase : flatAfter none [] = some start.currentPhase := by rw [hstart]; rfl
          have hnames : ({} : DriverState).phaseNames = (none : Option String).toList := rfl
          exact ⟨by rw [Play.enabled, hinterp]; rfl,
            .events rfl hnames hphase (fun h => absurd h Bool.false_ne_true),
            List.forall_mem_nil _, rfl, by rw [hstart]; rfl⟩
      | snoc =>
          exact absurd hacts.symm (List.append_ne_nil_of_right_ne_nil _ (List.cons_ne_nil _ _))
  | @snoc acts play act next hplays hstep ih =>
      generalize hacts : acts ++ [act] = acts' at hanswers
      cases hanswers with
      | nil => exact absurd hacts (List.append_ne_nil_of_right_ne_nil _ (List.cons_ne_nil _ _))
      | @snoc _ _ middle _ hbefore hanswer =>
          obtain ⟨rfl, hlast⟩ := List.append_inj' hacts rfl
          cases hlast
          obtain ⟨henabled, hcoupled, hnoError, hturns, hasked⟩ := ih hbefore
          obtain ⟨hnext, hsent⟩ := hcoupled.step henabled hstep hanswer
          refine ⟨?_, hnext, ?_, ?_, ?_⟩
          · rw [hstep.enabled, henabled, hanswer.panic]
            rfl
          · rw [sentIn_append]
            exact List.forall_mem_append.mpr ⟨hnoError, hsent.noError⟩
          · rw [sentIn_append, phaseMarks, List.filterMap_append, Transition.run_append]
            exact (congrArg (Option.bind · _) hturns).trans hsent.turns
          · rw [marksAsked, repliesIn, List.filterMap_append, List.flatMap_append,
              List.filterMap_append, Transition.run_append]
            exact (congrArg (Option.bind · _) hasked).trans hanswer.asked

/-- What follows the exit call: its events are sent, and then `Finalized`; there
is no phase left to close. -/
inductive AfterExit (evs : List InterpreterEvent) (play : Play) (after : List Act) : Prop where
  | telling {due} (hstage : play.stage = .events due true)
      (hlength : after.length + due.length = (spokenOf evs).length)
  | ended {told e outcome} (hstage : play.stage = .finalized) (hafter : after = told ++ [.sent e])
      (hbody : e.body = .finalized outcome) (hlength : told.length = (spokenOf evs).length)
      (hstack : play.state.phaseStack = [])

theorem AfterExit.step {evs : List InterpreterEvent} {after : List Act}
    (h : AfterExit evs play after) (hcoupled : Coupled interp play)
    (hstep : play.Step cfg act next) : AfterExit evs next (after ++ [act]) := by
  cases h with
  | ended hstage => exact absurd hstage hstep.not_over
  | @telling due hstage hlength =>
      cases hstep with
      | said time hstage' h' =>
          rw [hstage] at hstage'
          cases hstage'
          refine .telling rfl ?_
          rw [List.length_append, ← hlength]
          exact (Nat.succ_add_eq_add_succ _ _)
      | closed time hstage' hfinal hexit hstack =>
          rw [hstage] at hstage'
          cases hstage'
          obtain ⟨hnames, hnone⟩ := hcoupled.settled hstage
          rw [hnone rfl, DriverState.phaseNames, hstack] at hnames
          cases hnames
      | finalized cancelled timedOut time hstage' hfinal hexit hstack =>
          rw [hstage] at hstage'
          cases hstage'
          exact .ended rfl rfl rfl hlength hstack
      | created _ _ h | started _ _ h | output _ _ _ h | exited _ _ h | onLine _ h
      | onExit _ h | panicked _ h | refused _ _ h =>
          rw [hstage] at h
          cases h

theorem Plays.after_exit (hinterp : cfg.interpreter = true) {start : RuleInterpreter}
    (hstart : start.currentPhase = none) (h : Plays cfg acts play)
    (hanswers : start.Answers acts interp) {before after : List Act} {ctx : Context}
    {exit : ExitCode} {reply : InterpreterReply}
    (hacts : acts = before ++ .onExit ctx exit reply :: after) :
    AfterExit reply.events play after := by
  induction h generalizing after interp with
  | nil => cases before <;> cases hacts
  | @snoc acts play act next hplays hstep ih =>
      generalize hwhole : acts ++ [act] = acts' at hanswers
      cases hanswers with
      | nil => exact absurd hwhole (List.append_ne_nil_of_right_ne_nil _ (List.cons_ne_nil _ _))
      | @snoc _ _ middle _ hbefore hanswer =>
          obtain ⟨rfl, hlast⟩ := List.append_inj' hwhole rfl
          cases hlast
          rcases List.eq_nil_or_concat after with rfl | ⟨init, last, rfl⟩
          · obtain ⟨rfl, hlast⟩ := List.append_inj' hacts rfl
            cases hlast
            cases hanswer
            cases hstep with
            | onExit => exact .telling rfl (Nat.zero_add _)
          · rw [List.concat_eq_append, ← List.cons_append, ← List.append_assoc] at hacts
            obtain ⟨hinit, hlast⟩ := List.append_inj' hacts rfl
            cases hlast
            rw [List.concat_eq_append]
            exact (ih hbefore hinit).step (hplays.flat hinterp hstart hbefore).coupled hstep

end Plays

/-- A run of a job whose interpreter is a rule interpreter that has come to be
`interp`. -/
structure Sys.PhasesFlat (acts : List Act) (interp : RuleInterpreter) (s : Sys) : Prop where
  atLine : ∀ ctx line k, s.ctl = .run (.op (.onLine ctx line) k) →
    ctx.phaseStack.map Phase.name = interp.currentPhase.toList
  atExit : ∀ ctx exit k, s.ctl = .run (.op (.onExit ctx exit) k) →
    ctx.phaseStack.map Phase.name = interp.currentPhase.toList
  atTop : ∀ v, s.ctl = .top v → v.state.phaseStack.map Phase.name = interp.currentPhase.toList
  depth : (stateAfter acts).phaseStack.length ≤ 1
  asked : Alternate (marksAsked acts)
  sent : Alternate (phaseMarks s.log)
  noError : ∀ e ∈ s.log, e.body.isInterpreterError = false
  ended : ∀ outcome, .finalized outcome ∈ s.log.map Event.body →
    (stateAfter acts).phaseStack.map Phase.name = interp.currentPhase.toList
  exited : ∀ a ∈ acts, a.isExitCall = true → interp.currentPhase = none
  exit : ∀ before ctx exit reply told rest,
    acts = before ++ .onExit ctx exit reply :: (told ++ rest) →
    told.length = (spokenOf reply.events).length →
    (stateAfter (before ++ .onExit ctx exit reply :: told)).phaseStack = [] ∧
      (rest = [] ∨ ∃ e outcome, rest = [.sent e] ∧ e.body = .finalized outcome)

/-- A rule interpreter never misuses the driver's phase stack. -/
theorem rule_interpreter_phases_flat {cfg : Config} (hinterp : cfg.interpreter = true)
    {rules : List Rule} {phases : String → Option (F32 × F32)} {notes : Option NotesConfig}
    {fallback : Option FallbackPolicy} {interp : RuleInterpreter} {ls : List Label} {s : Sys}
    (hrun : Transition.run (Sys.step cfg) (Sys.init cfg) ls = some s)
    (hanswers : RuleInterpreter.Answers { rules, phases, notes, fallback } (actsOf cfg ls) interp) :
    s.PhasesFlat (actsOf cfg ls) interp := by
  have hs : Sys.Reachable cfg s := ⟨ls, hrun⟩
  have hkeeps := acts_keep hrun
  obtain ⟨play, hplays⟩ := hkeeps.play
  have hflat := fun play (h : Plays cfg (actsOf cfg ls) play) => h.flat hinterp rfl hanswers
  have hnow := hflat play hplays
  have hexit := fun before after ctx exit reply
      (hacts : actsOf cfg ls = before ++ .onExit ctx exit reply :: after) =>
    hplays.after_exit hinterp rfl hanswers hacts
  refine ⟨?_, ?_, ?_, ?_, isChain_of_toggle hnow.asked, ?_, ?_, ?_, ?_, ?_⟩
  · intro ctx line k hctl
    obtain ⟨at_, hat, hstep⟩ := hkeeps.next _ _ hctl
    obtain ⟨next, hstep⟩ := hstep (.ok [])
    cases hstep with
    | onLine reply hstage henabled hctx => exact hctx.flat ((hflat _ hat).coupled.waiting hstage)
  · intro ctx exit k hctl
    obtain ⟨⟨at_, hat, hstep⟩, -⟩ := hkeeps.next _ _ hctl
    obtain ⟨next, hstep⟩ := hstep (.ok [])
    cases hstep with
    | onExit reply hstage henabled hexit hctx =>
        exact hctx.flat ((hflat _ hat).coupled.settled hstage).1
  · intro v hctl
    exact ((hflat _ (hkeeps.top v hctl)).coupled.settled rfl).1
  · rw [← hplays.state]
    exact hnow.coupled.depth
  · have hturns := isChain_of_toggle hnow.turns
    rwa [← hkeeps.sent, hs.merged.own, phaseMarks_own] at hturns
  · intro e he
    by_cases hcancelled : e.body.isCancelled = true
    · cases hbody : e.body <;> rw [hbody] at hcancelled <;> first | rfl | cases hcancelled
    · have hown : e.body.isCancelled = false := Bool.eq_false_of_not_eq_true hcancelled
      exact hnow.noError e (hkeeps.sent ▸ hs.mem_sent_iff.mpr ⟨he, hown⟩)
  · intro outcome hbody
    rw [← hplays.state]
    exact hnow.coupled.finished (hkeeps.stage_finalized hs hplays hbody)
  · intro a ha hcall
    obtain ⟨before, after, hacts⟩ := List.append_of_mem ha
    cases a with
    | onExit ctx exit reply =>
        cases hexit before after ctx exit reply hacts with
        | telling hstage hlength =>
            cases hnow.coupled with
            | events hstage' hnames hdue hfinal =>
                rw [hstage] at hstage'
                cases hstage'
                exact hfinal rfl
            | line hstage' | finalized hstage' => rw [hstage] at hstage'; cases hstage'
        | ended hstage hafter hbody hlength hstack =>
            have hnames := hnow.coupled.finished hstage
            rw [DriverState.phaseNames, hstack] at hnames
            exact Option.toList_eq_nil_iff.mp hnames.symm
    | _ => cases hcall
  · intro before ctx exit reply told rest hacts hlength
    cases hexit before _ ctx exit reply hacts with
    | @telling due hstage hall =>
        rw [List.length_append] at hall
        obtain rfl : rest = [] := List.length_eq_zero_iff.mp (by omega)
        obtain rfl : due = [] := List.length_eq_zero_iff.mp (by omega)
        obtain ⟨hnames, hnone⟩ := hnow.coupled.settled hstage
        rw [hnone rfl, hplays.state, hacts, List.append_nil] at hnames
        exact ⟨List.map_eq_nil_iff.mp hnames, Or.inl rfl⟩
    | @ended told' e outcome hstage hafter hbody hall hstack =>
        obtain ⟨rfl, rfl⟩ := List.append_inj hafter (hlength.trans hall.symm)
        refine ⟨?_, Or.inr ⟨e, outcome, rfl, hbody⟩⟩
        rw [hplays.state, hacts, ← List.cons_append, ← List.append_assoc,
          stateAfter_append] at hstack
        simpa [DriverState.follow, DriverState.tell, hbody] using hstack

/-- A table of one rule, which enters a phase. -/
def buildRules : RuleInterpreter where
  rules := [{ regex := { captures := fun text => if text = "x" then some (fun _ => text) else none }
              action := .enterPhase "build" "at $1" }]
  phases _ := some (.finite 0, .finite 1)

/-- The job writes the line `x` and leaves. -/
def buildRun : List Label :=
  drive 12 ++ [.arrive .stdout [0x78, newline]] ++ drive 5 ++
    [.driver { interp := .ok [.enterPhase "build" (some "at x"),
      .progress (.fraction (.finite 0))] }] ++ drive 12 ++
    [.close .stdout .eof, .close .stderr .eof, .exitLeader .own (.exited 0), .wait .go {},
      .wait .child {}, .wait .go {}] ++ drive 10 ++
    [.driver { interp := .ok [.exitPhase, .progress (.fraction (.finite 1))] }] ++ drive 15

theorem buildRun_runs :
    (Transition.run (Sys.step toldConfig) (Sys.init toldConfig) buildRun).isSome = true := by
  decide

def buildEnd : Sys := Transition.endOf _ _ buildRun buildRun_runs

theorem buildRun_answered :
    (Transition.run (RuleInterpreter.answer 0) buildRules (actsOf toldConfig buildRun)).isSome =
      true := by
  decide

theorem rule_interpreter_phases_flat_build :
    marksAsked (actsOf toldConfig buildRun) = [true, false] ∧
      phaseMarks buildEnd.log = [true, false] ∧
      buildEnd.PhasesFlat (actsOf toldConfig buildRun)
        (Transition.endOf _ _ (actsOf toldConfig buildRun) buildRun_answered) :=
  ⟨by decide, by decide, rule_interpreter_phases_flat rfl
    (Transition.run_endOf (Sys.init toldConfig) buildRun buildRun_runs)
    (.of_run (Transition.run_endOf buildRules (actsOf toldConfig buildRun) buildRun_answered))⟩

end Execra
