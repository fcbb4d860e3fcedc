import Execra.Job.Account

/-!
When the interpreter is called, and what a panic of it can do. The calls follow
the lines one by one; a call that panics is the last one, it is reported once,
and nothing it might have said reaches the events or the driver's state. The
exit call stands between the announced exit and the closing of the phases.
-/

namespace Execra

/-- The lines the interpreter was called with. -/
def calledOn (acts : List Act) : List (Stream × String) :=
  acts.filterMap (fun act =>
    match act with
    | .onLine _ line _ => some (line.stream, line.text)
    | _ => none)

def Act.isLineCall : Act → Bool
  | .onLine .. => true
  | _ => false

def Act.isExitCall : Act → Bool
  | .onExit .. => true
  | _ => false

def Act.isCall (act : Act) : Bool := act.isLineCall || act.isExitCall

/-- The text of a panic, and the line the call was given. -/
def Act.panic? : Act → Option (String × Option String)
  | .onLine _ line (.error error) => some (error, some line.text)
  | .onExit _ _ (.error error) => some (error, none)
  | _ => none

/-- The events that report what an interpreter said. -/
def metadataOf (log : List Event) : List EventBody :=
  (log.map Event.body).filter EventBody.isMetadata

/-- The phases a log closes. -/
def exitsOfPhases (log : List Event) : Nat :=
  log.countP (fun e => match e.body with | .phaseExited _ => true | _ => false)

def InterpreterEvent.isExitPhase : InterpreterEvent → Bool
  | .exitPhase => true
  | _ => false

/-- How often the interpreter has asked to close a phase. -/
def exitsAsked (acts : List Act) : Nat :=
  ((repliesIn acts).flatMap InterpreterReply.events).countP InterpreterEvent.isExitPhase

theorem calledOn_append (acts more : List Act) :
    calledOn (acts ++ more) = calledOn acts ++ calledOn more := List.filterMap_append ..

theorem metadataOf_append (log more : List Event) :
    metadataOf (log ++ more) = metadataOf log ++ metadataOf more := by
  rw [metadataOf, List.map_append, List.filter_append]
  rfl

/-! The lines. -/

/-- The line that is to be interpreted next. -/
def Stage.line? : Stage → Option (Stream × String)
  | .line l => some (l.stream, l.text)
  | _ => none

section Plays

variable {cfg : Config} {play next : Play} {act : Act} {acts : List Act}

theorem Stage.ofReply_line? (line : Option String) (final : Bool) (reply : InterpreterReply) :
    (Stage.ofReply line final reply).line? = none := by
  cases reply <;> rfl

/-- A step sends a line, calls the interpreter with it, or has nothing to do
with lines. -/
theorem Play.Step.line_cases (h : play.Step cfg act next) :
    (∃ line, play.stage.line? = some line ∧ play.enabled cfg = true ∧ calledOn [act] = [line] ∧
      outputsOf (sentIn [act]) = [] ∧ next.stage.line? = none) ∨
    (∃ line, play.stage.line? = none ∧ calledOn [act] = [] ∧
      outputsOf (sentIn [act]) = [line] ∧ next.state = play.state ∧
      next.stage.line? = if play.enabled cfg then some line else none) ∨
    (play.stage.line? = none ∧ calledOn [act] = [] ∧ outputsOf (sentIn [act]) = [] ∧
      next.stage.line? = none) := by
  cases h with
  | onLine reply hstage henabled hctx =>
      exact Or.inl ⟨_, by rw [hstage]; rfl, henabled, rfl, rfl, Stage.ofReply_line? _ _ reply⟩
  | output stream text time hstage =>
      refine Or.inr (Or.inl ⟨(stream, text), by rw [hstage]; rfl, rfl, rfl, rfl, ?_⟩)
      cases play.enabled cfg <;> rfl
  | onExit reply hstage henabled hexit hctx =>
      exact Or.inr (Or.inr ⟨by rw [hstage]; rfl, rfl, rfl, Stage.ofReply_line? _ _ reply⟩)
  | said time hstage h =>
      refine Or.inr (Or.inr ⟨by rw [hstage]; rfl, rfl, ?_, rfl⟩)
      cases h <;> rfl
  | created _ _ hstage | started _ _ hstage | exited _ _ hstage =>
      exact Or.inr (Or.inr ⟨by rw [hstage]; rfl, rfl, rfl, by rw [hstage]; rfl⟩)
  | panicked _ hstage | closed _ hstage | refused _ _ hstage | finalized _ _ _ hstage =>
      exact Or.inr (Or.inr ⟨by rw [hstage]; rfl, rfl, rfl, rfl⟩)

/-- Only a panic disables the interpreter. -/
theorem DriverState.follow_disabled (state : DriverState) (act : Act) :
    (state.follow act).interpDisabled = (state.interpDisabled || act.panic?.isSome) := by
  cases act with
  | sent e =>
      obtain ⟨job, body, time⟩ := e
      cases body with
      | phaseUpdated phase label =>
          rcases hstack : state.phaseStack with _ | ⟨top, rest⟩ <;>
            simp [follow, tell, Act.panic?, hstack]
      | _ => simp [follow, tell, Act.panic?]
  | onLine ctx line reply | onExit ctx exit reply =>
      cases reply <;> simp [follow, hear, heard, Act.panic?]

theorem stateAfter_disabled (acts : List Act) :
    (stateAfter acts).interpDisabled = acts.any (fun act => act.panic?.isSome) := by
  induction acts using List.reverseRecOn with
  | nil => rfl
  | append_singleton acts act ih =>
      rw [stateAfter_append, List.any_append, ← ih]
      exact ((stateAfter acts).follow_disabled act).trans (by simp)

/-- The calls follow the lines. -/
structure Lined (cfg : Config) (acts : List Act) (play : Play) : Prop where
  called : calledOn acts <+: outputsOf (sentIn acts)
  all : play.enabled cfg = true →
    outputsOf (sentIn acts) = calledOn acts ++ play.stage.line?.toList

theorem Play.Step.enabled (h : play.Step cfg act next) :
    next.enabled cfg = (play.enabled cfg && act.panic?.isNone) := by
  rw [Play.enabled, h.state, DriverState.follow_disabled, Play.enabled]
  cases cfg.interpreter <;> cases play.state.interpDisabled <;> cases act.panic? <;> rfl

theorem Plays.lined (h : Plays cfg acts play) : Lined cfg acts play := by
  induction h with
  | nil => exact ⟨List.prefix_rfl, fun _ => rfl⟩
  | @snoc acts play act next _ hstep ih =>
      have hcalled := calledOn_append acts [act]
      have houtputs : outputsOf (sentIn (acts ++ [act])) =
          outputsOf (sentIn acts) ++ outputsOf (sentIn [act]) := by
        rw [sentIn_append, outputsOf, List.filterMap_append]
        rfl
      have hbefore : next.enabled cfg = true → play.enabled cfg = true := by
        rw [hstep.enabled, Bool.and_eq_true]
        exact And.left
      rcases hstep.line_cases with ⟨line, hwaits, henabled, hcall, hout, hafter⟩ |
        ⟨line, hwaits, hcall, hout, hsame, hafter⟩ | ⟨hwaits, hcall, hout, hafter⟩
      · rw [hcall] at hcalled
        rw [hout, List.append_nil, ih.all henabled, hwaits] at houtputs
        refine ⟨?_, fun _ => ?_⟩
        · rw [hcalled, houtputs]
          exact List.prefix_rfl
        · rw [hcalled, houtputs, hafter]
          exact (List.append_nil _).symm
      · rw [hcall, List.append_nil] at hcalled
        rw [hout] at houtputs
        refine ⟨?_, fun henabled => ?_⟩
        · rw [hcalled, houtputs]
          exact ih.called.trans (List.prefix_append _ _)
        · rw [hcalled, houtputs, ih.all (hbefore henabled), hwaits, hafter,
            if_pos (hbefore henabled)]
          exact congrArg (· ++ [line]) (List.append_nil _)
      · rw [hcall, List.append_nil] at hcalled
        rw [hout, List.append_nil] at houtputs
        refine ⟨?_, fun henabled => ?_⟩
        · rw [hcalled, houtputs]
          exact ih.called
        · rw [hcalled, houtputs, hafter, ih.all (hbefore henabled), hwaits]

/-! A panic. -/

theorem Play.Step.call_enabled (h : play.Step cfg act next) (hcall : act.isCall = true) :
    play.enabled cfg = true := by
  cases h with
  | onLine _ _ henabled | onExit _ _ henabled => exact henabled
  | _ => cases hcall

/-- A job after a panic was reported, since then with the acts `rest`: it makes
no calls, and the only metadata it sends are the phases it closes at the end,
which are those that were open when the call panicked. -/
structure Contained (start : DriverState) (rest : List Act) (play : Play) : Prop where
  silent : ∀ a ∈ rest, a.isCall = false
  closes : ∃ closed, start.phaseStack = closed ++ play.state.phaseStack ∧
    metadataOf (sentIn rest) = closed.map (fun phase => .phaseExited phase.id)
  state : play.state =
    { start with phaseStack := play.state.phaseStack, interpDisabled := true }
  idle : play.stage = .finalized ∨ ∃ final, play.stage = .events [] final ∧
    (final = false → play.state.phaseStack = start.phaseStack)

/-- An act that is no metadata leaves the state alone. -/
private theorem Contained.quiet {start : DriverState} {rest : List Act}
    (h : Contained start rest play) (hcall : act.isCall = false)
    (hmeta : metadataOf (sentIn [act]) = []) (hstate : next.state = play.state)
    (hidle : next.stage = .finalized ∨ ∃ final, next.stage = .events [] final ∧
      (final = false → next.state.phaseStack = start.phaseStack)) :
    Contained start (rest ++ [act]) next where
  silent := by
    intro a ha
    rcases List.mem_append.mp ha with ha | ha
    · exact h.silent a ha
    · rw [List.mem_singleton.mp ha]
      exact hcall
  closes := by
    rw [sentIn_append, metadataOf_append, hmeta, List.append_nil, hstate]
    exact h.closes
  state := by rw [hstate]; exact h.state
  idle := hidle

theorem Contained.step {start : DriverState} {rest : List Act} (h : Contained start rest play)
    (hstep : play.Step cfg act next) : Contained start (rest ++ [act]) next := by
  have hdisabled : play.enabled cfg = false := by
    rw [Play.enabled, h.state]
    exact Bool.and_false _
  have hidle : ∀ due final, play.stage = .events due final → due = [] ∧
      (final = false → play.state.phaseStack = start.phaseStack) := by
    intro due final hstage
    rcases h.idle with hover | ⟨final', hstage', hopen⟩
    · rw [hover] at hstage
      cases hstage
    · rw [hstage'] at hstage
      cases hstage
      exact ⟨rfl, hopen⟩
  have hcall : act.isCall = false := by
    refine eq_false_of_ne_true (fun hcall => ?_)
    rw [hstep.call_enabled hcall] at hdisabled
    cases hdisabled
  cases hstep with
  | created _ _ hstage | started _ _ hstage | exited _ _ hstage =>
      exact h.quiet hcall rfl rfl (Or.inr ⟨false, hstage, (hidle _ _ hstage).2⟩)
  | output stream text time hstage =>
      refine h.quiet hcall rfl rfl (Or.inr ⟨false, ?_, (hidle _ _ hstage).2⟩)
      rw [hdisabled]
      rfl
  | onLine _ _ _ | onExit _ _ _ => cases hcall
  | said time hstage => cases (hidle _ _ hstage).1
  | panicked time hstage =>
      rcases h.idle with hover | ⟨_, hstage', -⟩
      · rw [hover] at hstage
        cases hstage
      · rw [hstage'] at hstage
        cases hstage
  | @closed final top rest' time hstage hfinal hexit hstack =>
      obtain ⟨closed, hsplit, hsent⟩ := h.closes
      refine ⟨?_, ⟨closed ++ [top], ?_, ?_⟩, ?_, Or.inr ⟨true, rfl, nofun⟩⟩
      · intro a ha
        rcases List.mem_append.mp ha with ha | ha
        · exact h.silent a ha
        · rw [List.mem_singleton.mp ha]
          rfl
      · rw [hsplit, hstack]
        exact List.append_cons _ _ _
      · rw [sentIn_append, metadataOf_append, hsent, List.map_append]
        rfl
      · rw [h.state]
  | refused _ _ hstage | finalized _ _ _ hstage => exact h.quiet hcall rfl rfl (Or.inl rfl)

/-- What a panicking call leads to. -/
inductive AfterPanic (cfg : Config) (start : DriverState) (error : String)
    (line : Option String) (play : Play) : List Act → Prop where
  | due (final) (hstage : play.stage = .panicked error line final)
      (hstate : play.state = { start with interpDisabled := true }) :
      AfterPanic cfg start error line play []
  | reported (time) {rest} (h : Contained start rest play) :
      AfterPanic cfg start error line play
        (.sent { job := cfg.id, body := .interpreterError "interpreter" error line, time } :: rest)

theorem Play.Step.panics {error : String} {line : Option String} (h : play.Step cfg act next)
    (hpanic : act.panic? = some (error, line)) :
    AfterPanic cfg play.state error line next [] := by
  cases h with
  | onLine reply hstage henabled hctx =>
      cases reply with
      | ok evs => cases hpanic
      | error error' => cases hpanic; exact .due false rfl rfl
  | onExit reply hstage henabled hexit hctx =>
      cases reply with
      | ok evs => cases hpanic
      | error error' => cases hpanic; exact .due true rfl rfl
  | _ => cases hpanic

theorem AfterPanic.step {start : DriverState} {error : String} {line : Option String}
    {after : List Act} (h : AfterPanic cfg start error line play after)
    (hstep : play.Step cfg act next) :
    AfterPanic cfg start error line next (after ++ [act]) := by
  cases h with
  | due final hstage hstate =>
      cases hstep with
      | panicked time hstage' =>
          rw [hstage] at hstage'
          cases hstage'
          have hstack : play.state.phaseStack = start.phaseStack := by rw [hstate]
          exact .reported time
            { silent := fun a ha => absurd ha List.not_mem_nil
              closes := ⟨[], hstack.symm, rfl⟩
              state := by rw [hstate]
              idle := Or.inr ⟨final, rfl, fun _ => hstack⟩ }
      | created _ _ h | started _ _ h | output _ _ _ h | exited _ _ h | onLine _ h
      | onExit _ h | said _ h | closed _ h | refused _ _ h | finalized _ _ _ h =>
          rw [hstage] at h
          cases h
  | reported time h => exact .reported time (h.step hstep)

/-- A panicking call is the last one. -/
theorem Plays.after_panic (h : Plays cfg acts play) {before after : List Act} {call : Act}
    {error : String} {line : Option String} (hacts : acts = before ++ call :: after)
    (hpanic : call.panic? = some (error, line)) :
    AfterPanic cfg (stateAfter before) error line play after := by
  induction h generalizing after with
  | nil => cases before <;> cases hacts
  | @snoc acts play act next hplays hstep ih =>
      rcases List.eq_nil_or_concat after with rfl | ⟨init, last, rfl⟩
      · obtain ⟨rfl, hlast⟩ := List.append_inj' hacts rfl
        cases hlast
        rw [← hplays.state]
        exact hstep.panics hpanic
      · rw [List.concat_eq_append, ← List.cons_append, ← List.append_assoc] at hacts
        obtain ⟨hinit, hlast⟩ := List.append_inj' hacts rfl
        cases hlast
        rw [List.concat_eq_append]
        exact (ih hinit).step hstep

/-! The exit call. -/

/-- The job is past the point where `on_exit` is called. -/
def Stage.isFinal : Stage → Bool
  | .events _ final => final
  | .line _ => false
  | .panicked _ _ final => final
  | .finalized => true

theorem Stage.ofReply_isFinal (line : Option String) (final : Bool) (reply : InterpreterReply) :
    (Stage.ofReply line final reply).isFinal = final := by
  cases reply <;> rfl

/-- The exit call takes the job past its point; without the call it gets there
with a disabled interpreter, or if it was refused. -/
theorem Play.Step.exit_cases (h : play.Step cfg act next) :
    (act.isExitCall = true ∧ play.stage.isFinal = false ∧ next.stage.isFinal = true) ∨
    (act.isExitCall = false ∧ next.stage.isFinal = play.stage.isFinal ∧
      (play.stage.isFinal = true → next.started = play.started)) ∨
    (act.isExitCall = false ∧ play.stage.isFinal = false ∧
      (play.enabled cfg = false ∨ next.started = false)) := by
  cases h with
  | onExit reply hstage =>
      exact Or.inl ⟨rfl, by rw [hstage]; rfl, Stage.ofReply_isFinal _ _ reply⟩
  | onLine reply hstage =>
      refine Or.inr (Or.inl ⟨rfl, ?_, fun _ => rfl⟩)
      rw [hstage]
      exact Stage.ofReply_isFinal _ _ reply
  | started pid time hstage =>
      refine Or.inr (Or.inl ⟨rfl, rfl, fun hfinal => ?_⟩)
      rw [hstage] at hfinal
      cases hfinal
  | output stream text time hstage =>
      refine Or.inr (Or.inl ⟨rfl, ?_, fun _ => rfl⟩)
      rw [hstage]
      cases play.enabled cfg <;> rfl
  | @closed final top rest time hstage hfinal | @finalized final exit _ _ time hstage hfinal =>
      cases final with
      | true => exact Or.inr (Or.inl ⟨rfl, (congrArg Stage.isFinal hstage).symm, fun _ => rfl⟩)
      | false =>
          have hdisabled := hfinal.resolve_left Bool.false_ne_true
          exact Or.inr (Or.inr ⟨rfl, by rw [hstage]; rfl, Or.inl hdisabled⟩)
  | refused error time hstage hstarted =>
      exact Or.inr (Or.inr ⟨rfl, by rw [hstage]; rfl, Or.inr hstarted⟩)
  | created | exited => exact Or.inr (Or.inl ⟨rfl, rfl, fun _ => rfl⟩)
  | said _ hstage | panicked _ hstage =>
      exact Or.inr (Or.inl ⟨rfl, (congrArg Stage.isFinal hstage).symm, fun _ => rfl⟩)

/-- How often the exit call was made. -/
structure ExitCalls (cfg : Config) (acts : List Act) (play : Play) : Prop where
  early : play.stage.isFinal = false → acts.countP Act.isExitCall = 0
  once : acts.countP Act.isExitCall ≤ 1
  made : play.stage.isFinal = true → play.started = true → cfg.interpreter = true →
    (∀ a ∈ acts, a.isLineCall = true → a.panic? = none) → acts.countP Act.isExitCall = 1

/-- With no panic and no exit call so far, the interpreter is still called. -/
private theorem Plays.enabled_of_calm (h : Plays cfg acts play) (hinterp : cfg.interpreter = true)
    (hnone : acts.countP Act.isExitCall = 0)
    (hcalm : ∀ a ∈ acts, a.isLineCall = true → a.panic? = none) : play.enabled cfg = true := by
  rw [Play.enabled, hinterp, h.state, stateAfter_disabled, Bool.true_and, Bool.not_eq_true',
    List.any_eq_false]
  intro a ha
  cases a with
  | sent e => exact Bool.false_ne_true
  | onLine ctx line reply =>
      rw [hcalm _ ha rfl]
      exact Bool.false_ne_true
  | onExit ctx exit reply => exact absurd rfl (List.countP_eq_zero.mp hnone _ ha)

theorem Plays.exitCalls (h : Plays cfg acts play) : ExitCalls cfg acts play := by
  induction h with
  | nil => exact ⟨fun _ => rfl, Nat.zero_le _, nofun⟩
  | @snoc acts play act next hplays hstep ih =>
      have hcount : (acts ++ [act]).countP Act.isExitCall =
          acts.countP Act.isExitCall + if act.isExitCall then 1 else 0 := by
        rw [List.countP_append, List.countP_singleton]
      have hcalm : (∀ a ∈ acts ++ [act], a.isLineCall = true → a.panic? = none) →
          ∀ a ∈ acts, a.isLineCall = true → a.panic? = none :=
        fun h a ha => h a (List.mem_append_left _ ha)
      rcases hstep.exit_cases with ⟨hexit, hfinal, hnext⟩ | ⟨hexit, hsame, hstarted⟩ |
        ⟨hexit, hfinal, hwhy⟩
      · rw [if_pos hexit, ih.early hfinal] at hcount
        exact ⟨fun h => (Bool.eq_false_iff.mp h hnext).elim, hcount.le, fun _ _ _ _ => hcount⟩
      · rw [if_neg (by rw [hexit]; exact Bool.false_ne_true), Nat.add_zero] at hcount
        refine ⟨fun h => ?_, hcount.le.trans ih.once, fun hnext hnow hinterp hall => ?_⟩
        · rw [hcount, ih.early (hsame ▸ h)]
        · rw [hsame] at hnext
          rw [hcount, ih.made hnext (hstarted hnext ▸ hnow) hinterp (hcalm hall)]
      · rw [if_neg (by rw [hexit]; exact Bool.false_ne_true), Nat.add_zero,
          ih.early hfinal] at hcount
        refine ⟨fun _ => hcount, hcount.le.trans (Nat.zero_le 1), fun _ hnow hinterp hall => ?_⟩
        rcases hwhy with hdisabled | hrefused
        · rw [hplays.enabled_of_calm hinterp (ih.early hfinal) (hcalm hall)] at hdisabled
          cases hdisabled
        · rw [hnow] at hrefused
          cases hrefused

/-- The events of the last reply that are still to be sent. -/
def Stage.due : Stage → List InterpreterEvent
  | .events due _ => due
  | _ => []

theorem Announces.exits_asked {state : DriverState} {ev : InterpreterEvent} {body : EventBody}
    {job : JobId} {time : SystemTime} (h : Announces state ev body) :
    exitsOfPhases [{ job, body, time }] ≤ if ev.isExitPhase then 1 else 0 := by
  cases h <;> simp [exitsOfPhases, InterpreterEvent.isExitPhase]

/-- As long as the exit call can come, each phase that is closed was asked for. -/
theorem Play.Step.closes_asked (h : play.Step cfg act next) (henabled : next.enabled cfg = true)
    (hfinal : next.stage.isFinal = false) :
    play.stage.isFinal = false ∧
      exitsOfPhases (sentIn [act]) + next.stage.due.countP InterpreterEvent.isExitPhase ≤
        play.stage.due.countP InterpreterEvent.isExitPhase + exitsAsked [act] := by
  cases h with
  | created _ _ hstage | started _ _ hstage | exited _ _ hstage =>
      exact ⟨by rw [hstage]; rfl, by rw [hstage]; exact Nat.le_refl 0⟩
  | output stream text time hstage =>
      refine ⟨by rw [hstage]; rfl, ?_⟩
      rw [hstage]
      cases play.enabled cfg <;> exact Nat.le_refl 0
  | @onLine ctx line reply hstage =>
      refine ⟨by rw [hstage]; rfl, ?_⟩
      rw [hstage]
      cases reply with
      | ok evs =>
          have hasked : exitsAsked [.onLine ctx line (.ok evs)] =
              evs.countP InterpreterEvent.isExitPhase :=
            congrArg _ (List.append_nil evs)
          rw [hasked]
          have hspoken : (spokenOf evs).countP InterpreterEvent.isExitPhase ≤
              evs.countP InterpreterEvent.isExitPhase :=
            List.filter_sublist.countP_le
          exact (Nat.zero_add _).trans_le (hspoken.trans (Nat.zero_add _).ge)
      | error error => exact Nat.le_refl 0
  | onExit reply hstage => cases (Stage.ofReply_isFinal _ _ reply).symm.trans hfinal
  | @said ev due final _ time hstage h =>
      refine ⟨by rw [hstage]; exact hfinal, ?_⟩
      rw [hstage]
      change exitsOfPhases [_] + due.countP InterpreterEvent.isExitPhase ≤
        (ev :: due).countP InterpreterEvent.isExitPhase + 0
      rw [List.countP_cons, Nat.add_zero, Nat.add_comm]
      exact Nat.add_le_add_left h.exits_asked _
  | panicked time hstage =>
      refine ⟨by rw [hstage]; exact hfinal, by rw [hstage]; exact Nat.le_refl 0⟩
  | closed | refused | finalized => cases hfinal

theorem Plays.closes_asked (h : Plays cfg acts play) (henabled : play.enabled cfg = true)
    (hfinal : play.stage.isFinal = false) :
    exitsOfPhases (sentIn acts) + play.stage.due.countP InterpreterEvent.isExitPhase ≤
      exitsAsked acts := by
  induction h with
  | nil => exact Nat.le_refl 0
  | @snoc acts play act next _ hstep ih =>
      obtain ⟨hbefore, hstep'⟩ := hstep.closes_asked henabled hfinal
      rw [hstep.enabled, Bool.and_eq_true] at henabled
      have hih := ih henabled.1 hbefore
      rw [sentIn_append, exitsOfPhases, List.countP_append, exitsAsked, repliesIn,
        List.filterMap_append, List.flatMap_append, List.countP_append]
      change exitsOfPhases (sentIn acts) + exitsOfPhases (sentIn [act]) + _ ≤
        exitsAsked acts + exitsAsked [act]
      omega

/-- An act of an accepted sequence, and the automaton before it. -/
theorem Plays.at_act (h : Plays cfg acts play) {before after : List Act} {a : Act}
    (hacts : acts = before ++ a :: after) :
    ∃ at_ next, Plays cfg before at_ ∧ at_.Step cfg a next := by
  induction h generalizing after with
  | nil => cases before <;> cases hacts
  | @snoc acts play act next hplays hstep ih =>
      rcases List.eq_nil_or_concat after with rfl | ⟨init, last, rfl⟩
      · obtain ⟨rfl, hlast⟩ := List.append_inj' hacts rfl
        cases hlast
        exact ⟨play, next, hplays, hstep⟩
      · rw [List.concat_eq_append, ← List.cons_append, ← List.append_assoc] at hacts
        exact ih (List.append_inj' hacts rfl).1

end Plays

/-- The protocol of the interpreter's calls in a run that has reached `s`. -/
structure Sys.CallsOrderly (cfg : Config) (acts : List Act) (s : Sys) : Prop where
  lines : calledOn acts <+: outputsOf s.log
  allLines : (∀ a ∈ acts, a.panic? = none) →
    ((∃ v, s.ctl = .top v) ∨ ∃ outcome, .finalized outcome ∈ s.log.map Event.body) →
    calledOn acts = outputsOf s.log
  panic : ∀ before call after error line, acts = before ++ call :: after →
    call.panic? = some (error, line) →
    (∀ a ∈ after, a.isCall = false) ∧
    (after = [] ∨ ∃ time rest closed still,
      after = .sent { job := cfg.id, body := .interpreterError "interpreter" error line, time } ::
        rest ∧
      (stateAfter before).phaseStack = closed ++ still ∧
      metadataOf (sentIn rest) = closed.map (fun phase => .phaseExited phase.id)) ∧
    ∀ v, s.ctl = .top v → v.state = { stateAfter before with interpDisabled := true }
  exitOnce : acts.countP Act.isExitCall ≤ 1
  exitMade : ∀ pid outcome, .jobStarted pid ∈ s.log.map Event.body →
    .finalized outcome ∈ s.log.map Event.body →
    (∀ a ∈ acts, a.isLineCall = true → a.panic? = none) → acts.countP Act.isExitCall = 1
  exitPlace : ∀ before ctx exit reply after, acts = before ++ .onExit ctx exit reply :: after →
    exitsOf (sentIn before) = [exit] ∧
    exitsOfPhases (sentIn before) ≤ exitsAsked before ∧
    (∀ e ∈ sentIn before, ∀ outcome, e.body ≠ .finalized outcome) ∧
    ctx.Shows cfg (stateAfter before)
  exitTime : ∀ ctx exit k, s.ctl = .run (.op (.onExit ctx exit) k) →
    ∀ stream, endedIn stream s.selected = true ∧ (s.pipe stream).Over

/-- The calls of an interpreter are orderly in every run of its job. -/
theorem interpreter_calls_orderly {cfg : Config} {ls : List Label} {s : Sys}
    (hinterp : cfg.interpreter = true)
    (hrun : Transition.run (Sys.step cfg) (Sys.init cfg) ls = some s) :
    s.CallsOrderly cfg (actsOf cfg ls) := by
  have hs : Sys.Reachable cfg s := ⟨ls, hrun⟩
  have hkeeps := acts_keep hrun
  obtain ⟨play, hplays⟩ := hkeeps.play
  have houtputs : outputsOf (sentIn (actsOf cfg ls)) = outputsOf s.log := by
    rw [← hkeeps.sent, hs.merged.own, outputsOf_own]
  have hcalm : (∀ a ∈ actsOf cfg ls, a.panic? = none) → ∀ play,
      Plays cfg (actsOf cfg ls) play → play.enabled cfg = true := by
    intro hnone play hplays
    rw [Play.enabled, hinterp, hplays.state, stateAfter_disabled, Bool.true_and,
      Bool.not_eq_true', List.any_eq_false]
    intro a ha
    rw [hnone a ha]
    exact Bool.false_ne_true
  refine ⟨houtputs ▸ hplays.lined.called, ?_, ?_, hplays.exitCalls.once, ?_, ?_, ?_⟩
  · rintro hnone (⟨v, hctl⟩ | ⟨outcome, hfinal⟩)
    · have htop := hkeeps.top v hctl
      rw [← houtputs, htop.lined.all (hcalm hnone _ htop)]
      exact (List.append_nil _).symm
    · rw [← houtputs, hplays.lined.all (hcalm hnone _ hplays),
        hkeeps.stage_finalized hs hplays hfinal]
      exact (List.append_nil _).symm
  · intro before call after error line hacts hpanic
    have hafter := hplays.after_panic hacts hpanic
    refine ⟨?_, ?_, fun v hctl => ?_⟩
    · cases hafter with
      | due final hstage hstate => exact fun a ha => absurd ha List.not_mem_nil
      | reported time h => 
          exact List.forall_mem_cons.mpr ⟨rfl, h.silent⟩
    · cases hafter with
      | due final hstage hstate => exact Or.inl rfl
      | reported time h =>
          obtain ⟨closed, hsplit, hmeta⟩ := h.closes
          exact Or.inr ⟨time, _, closed, _, rfl, hsplit, hmeta⟩
    · cases (hkeeps.top v hctl).after_panic hacts hpanic with
      | due final hstage hstate => cases hstage
      | reported time h =>
          obtain ⟨-, -, hstate, hidle⟩ := h
          rcases hidle with hover' | ⟨final, hstage, hopen⟩
          · cases hover'
          · cases hstage
            exact hstate.trans (by rw [hopen rfl])
  · intro pid outcome hstart hfinal hnone
    obtain ⟨e, he, hbody⟩ := List.mem_map.mp hstart
    have hsent : e ∈ sentIn (actsOf cfg ls) :=
      hkeeps.sent ▸ hs.mem_sent_iff.mpr ⟨he, by rw [hbody]; rfl⟩
    have hfinals : play.stage.isFinal = true := by
      rw [hkeeps.stage_finalized hs hplays hfinal]
      rfl
    exact hplays.exitCalls.made hfinals (hplays.remembers.2 e hsent pid hbody) hinterp hnone
  · intro before ctx exit reply after hacts
    obtain ⟨at_, next, hbefore, hstep⟩ := hplays.at_act hacts
    cases hstep with
    | onExit reply hstage henabled hexit hctx =>
        have hclosed := hbefore.closes_asked henabled (by rw [hstage]; rfl)
        rw [hstage] at hclosed
        refine ⟨?_, hclosed, fun e he outcome hbody => ?_, hbefore.state ▸ hctx⟩
        · rw [← hbefore.remembers.1, hexit]
          rfl
        · obtain ⟨_, _, -, -, hlast⟩ := hbefore.finalized he hbody
          rw [hlast.finalizes hbody] at hstage
          cases hstage
  · intro ctx exit k hctl stream
    have hloop : LoopOver s.selected := (hkeeps.next _ _ hctl).2
    exact ⟨hloop.1 stream, hs.pipe_over stream (hloop.1 stream)⟩

theorem interpreter_calls_orderly_told :
    calledOn (actsOf toldConfig toldRun) = [(.stdout, "x"), (.stderr, "y")] ∧
      toldEnd.CallsOrderly toldConfig (actsOf toldConfig toldRun) :=
  ⟨by decide, interpreter_calls_orderly rfl
    (Transition.run_endOf (Sys.init toldConfig) toldRun toldRun_runs)⟩

end Execra
