import Execra.Job.Course
import Execra.Job.Protocol
import Execra.Job.Recording

/-!
The driver keeps to the protocol of its borders: the acts of every run of a job
are accepted by the automaton, and at the head of the loop the automaton is idle
and in the state of the driver.
-/

namespace Execra

open Program

def Op.isAct : Op → Bool
  | .send _ | .onLine _ _ | .onExit _ _ => true
  | _ => false

/-- The operation is an act that may come next, whatever it is answered. -/
def Op.Playable (cfg : Config) (x : Ledger × List Act) : Op → Prop
  | .send e => ∃ play next, Plays cfg x.2 play ∧ play.Step cfg (.sent e) next
  | .onLine ctx line =>
      ∃ play, Plays cfg x.2 play ∧ ∀ reply, ∃ next, play.Step cfg (.onLine ctx line reply) next
  | .onExit ctx exit =>
      (∃ play, Plays cfg x.2 play ∧
        ∀ reply, ∃ next, play.Step cfg (.onExit ctx exit reply) next) ∧ LoopOver x.1.selected
  | _ => ∃ play, Plays cfg x.2 play

/-- The driver at the head of its loop. -/
def LoopVars.idle (v : LoopVars) : Play where
  state := v.state
  started := true
  exit := v.exitStatus.map exitCodeOf

private def callsCourse (cfg : Config) : Course cfg (List Act) where
  ghost o a g :=
    match o with
    | .send e => g ++ [.sent e]
    | .onLine ctx line => g ++ [.onLine ctx line a]
    | .onExit ctx exit => g ++ [.onExit ctx exit a]
    | _ => g
  start := []
  here p x :=
    match p with
    | .ret _ => True
    | .op o _ => o.Playable cfg x
  bind _ _ _ _ h := h
  top v x := Plays cfg x.2 v.idle
  done x := ∃ play, Plays cfg x.2 play

section Held

variable {cfg : Config} {α : Type} {Q : α → Ledger × List Act → Prop} {play next : Play}

private theorem quiet_along {o : Op} (ho : o.isAct = false) (k : o.Ans → Driver α)
    {x : Ledger × List Act} (h : Plays cfg x.2 play)
    (hk : ∀ a d, (callsCourse cfg).along (k a) Q (d, x.2)) :
    (callsCourse cfg).along (.op o .ret >>= k) Q x := by
  cases o with
  | send _ | onLine _ _ | onExit _ _ => cases ho
  | _ => exact ⟨⟨play, h⟩, fun w => hk _ _⟩

private theorem send_along {e : Event} (k : Unit → Driver α) {x : Ledger × List Act}
    (h : Plays cfg x.2 play) (hstep : play.Step cfg (.sent e) next)
    (hk : ∀ d, Plays cfg (x.2 ++ [.sent e]) next →
      (callsCourse cfg).along (k ()) Q (d, x.2 ++ [.sent e])) :
    (callsCourse cfg).along (Driver.send e >>= k) Q x :=
  ⟨⟨play, next, h, hstep⟩, fun _ => hk _ (h.snoc hstep)⟩

private theorem emit_along {body : EventBody} {time : SystemTime} (k : Unit → Driver α)
    {x : Ledger × List Act} (h : Plays cfg x.2 play)
    (hstep : play.Step cfg (.sent { job := cfg.id, body, time }) next)
    (hk : ∀ y : Ledger × List Act, Plays cfg y.2 next →
      (callsCourse cfg).along (k ()) Q y) :
    (callsCourse cfg).along (emit cfg body time >>= k) Q x :=
  send_along _ h hstep (fun _ hnext => quiet_along rfl _ hnext (fun _ d => hk (d, _) hnext))

/-- Between two events of a reply. -/
private def Owes (cfg : Config) (final : Bool) (exit : Option ExitCode)
    (evs : List InterpreterEvent) (state : DriverState) (x : Ledger × List Act) : Prop :=
  Plays cfg x.2
    { stage := .events (spokenOf evs) final, state := state.heard evs, started := true, exit }

/-- An event that is sent, after an update or without one. -/
private theorem said_along {final : Bool} {exit : Option ExitCode} {ev : InterpreterEvent}
    {evs : List InterpreterEvent} {state next : DriverState} {body : EventBody}
    {time : SystemTime} {x : Ledger × List Act} (h : Owes cfg final exit (ev :: evs) state x)
    (hspoken : ev.summaryText = none) (hannounces : Announces (state.heard evs) ev body)
    (hnext : (state.heard evs).tell { job := cfg.id, body, time } = next.heard evs) :
    (callsCourse cfg).along (emit cfg body time >>= fun _ => pure next)
      (Owes cfg final exit evs) x := by
  have hdue : spokenOf (ev :: evs) = ev :: spokenOf evs := by
    rw [spokenOf, List.filter_cons_of_pos (by rw [hspoken]; rfl)]
    rfl
  have hheard : state.heard (ev :: evs) = state.heard evs := by
    simp [DriverState.heard, lastSummary, hspoken]
  unfold Owes at h
  rw [hdue, hheard] at h
  refine emit_along _ h (.said time rfl hannounces) (fun y hy => ?_)
  rw [hnext] at hy
  exact hy

private theorem applyEvent_along {final : Bool} {exit : Option ExitCode}
    (ev : InterpreterEvent) (evs : List InterpreterEvent) (state : DriverState)
    (x : Ledger × List Act) (h : Owes cfg final exit (ev :: evs) state x) :
    (callsCourse cfg).along (applyEvent cfg ev state) (Owes cfg final exit evs) x := by
  refine quiet_along rfl _ h (fun time d => ?_)
  cases ev with
  | enterPhase name label =>
      refine quiet_along rfl _ h (fun id d => quiet_along rfl _ h (fun _ d => ?_))
      exact said_along h rfl (.enterPhase id name label) rfl
  | updatePhase label =>
      rcases hstack : state.phaseStack with _ | ⟨top, rest⟩ <;> dsimp only
      · exact said_along h rfl (.updateNone label hstack) rfl
      · refine said_along h rfl (.updatePhase label hstack) ?_
        simp [DriverState.tell, DriverState.heard, hstack]
  | exitPhase =>
      rcases hstack : state.phaseStack with _ | ⟨top, rest⟩ <;> dsimp only
      · exact said_along h rfl (.exitNone hstack) rfl
      · refine quiet_along rfl _ h (fun _ d => said_along h rfl (.exitPhase hstack) ?_)
        simp [DriverState.tell, DriverState.heard, hstack]
  | progress progress =>
      exact quiet_along rfl _ h (fun _ d => said_along h rfl (.progress progress) rfl)
  | label text => exact quiet_along rfl _ h (fun _ d => said_along h rfl (.label text) rfl)
  | warning code message => exact said_along h rfl (.warning code message) rfl
  | knownError code message => exact said_along h rfl (.knownError code message) rfl
  | finding finding => exact said_along h rfl (.finding finding) rfl
  | prompt prompt => exact said_along h rfl (.prompt prompt) rfl
  | summary text =>
      have hheard : state.heard (.summary text :: evs) =
          { state with summary := some text }.heard evs := by
        unfold DriverState.heard
        rw [← List.singleton_append, lastSummary_append, Option.or_assoc]
        rfl
      unfold Owes at h
      rw [hheard] at h
      exact h

private theorem applyEvents_along {final : Bool} {exit : Option ExitCode}
    (evs : List InterpreterEvent) (state : DriverState) (x : Ledger × List Act)
    (h : Owes cfg final exit evs state x) :
    (callsCourse cfg).along (applyEvents cfg evs state) (Owes cfg final exit []) x := by
  induction evs generalizing state x with
  | nil => exact h
  | cons ev evs ih =>
      rw [applyEvents]
      exact Course.along_seq _ _ _ x (applyEvent_along ev evs state x h) ih

/-- A reply and what it obliges the driver to. -/
private theorem settleReply_along {final : Bool} {exit : Option ExitCode}
    (reply : InterpreterReply) (line : Option String) (state : DriverState)
    (x : Ledger × List Act)
    (h : Plays cfg x.2
      { stage := .ofReply line final reply, state := state.hear reply, started := true, exit }) :
    (callsCourse cfg).along (settleReply cfg reply line state)
      (Owes cfg final exit []) x := by
  cases reply with
  | ok evs => exact applyEvents_along evs state x h
  | error error =>
      refine quiet_along rfl _ h (fun time d => ?_)
      exact emit_along _ h (.panicked time rfl) (fun y hy => hy)

private theorem interpContext_shows (elapsed : Duration) (state : DriverState) :
    Context.Shows
      { job := cfg.id, command := cfg.spec, currentPhase := state.phaseStack.head?,
        phaseStack := state.phaseStack.reverse, elapsed } cfg state := ⟨rfl, rfl, rfl, rfl⟩

private theorem interpretLine_along {exit : Option ExitCode} (start : Instant) (line : Line)
    (state : DriverState) (x : Ledger × List Act)
    (h : Plays cfg x.2
      { stage := if cfg.interpreter && !state.interpDisabled then .line line else .events [] false,
        state, started := true, exit }) :
    (callsCourse cfg).along (interpretLine cfg start line state) (Owes cfg false exit []) x := by
  unfold interpretLine
  split
  · next henabled =>
      rw [if_pos henabled] at h
      refine quiet_along rfl _ h (fun (t : Instant) d => ?_)
      have hstep := fun reply => @Play.Step.onLine cfg
        { stage := .line line, state, started := true, exit } _ line reply rfl henabled
        (interpContext_shows (t - start) state)
      refine ⟨⟨_, h, fun reply => ⟨_, hstep reply⟩⟩, fun w => ?_⟩
      exact settleReply_along w.interp (some line.text) state _ (h.snoc (hstep w.interp))
  · next hdisabled =>
      rw [if_neg hdisabled] at h
      exact h

private theorem processLine_along (v : LoopVars) (stream : Stream) (text : String)
    (x : Ledger × List Act) (h : Plays cfg x.2 v.idle) :
    (callsCourse cfg).along (processLine cfg v.start stream text v.state)
      (Owes cfg false (v.exitStatus.map exitCodeOf) []) x := by
  have hsend : ∀ (time : SystemTime) (d : Ledger), (callsCourse cfg).along (do
      Driver.send { job := cfg.id, body := .outputAppended stream text, time }
      interpretLine cfg v.start { stream, text, time } v.state)
      (Owes cfg false (v.exitStatus.map exitCodeOf) []) (d, x.2) := fun time d =>
    send_along _ h (.output stream text time rfl)
      (fun d hsent => interpretLine_along v.start _ v.state _ hsent)
  unfold processLine rememberRaw
  refine quiet_along rfl _ h (fun time d => quiet_along rfl _ h (fun _ d => ?_))
  split
  · exact quiet_along rfl _ h (fun _ d => hsend time d)
  · exact hsend time d

/-- The end of a job, whichever outcome it sends. -/
private theorem finalizeJob_along {outcome : Outcome} (x : Ledger × List Act)
    (h : Plays cfg x.2 play)
    (hstep : ∀ time, play.Step cfg
      (.sent { job := cfg.id, body := .finalized outcome, time }) next) :
    (callsCourse cfg).along (finalizeJob cfg outcome) (fun _ => (callsCourse cfg).done) x := by
  refine quiet_along rfl _ h (fun _ d => quiet_along rfl _ h (fun _ d => ?_))
  refine quiet_along rfl _ h (fun _ d => quiet_along rfl _ h (fun time d => ?_))
  exact emit_along _ h (hstep time) (fun y hy =>
    quiet_along rfl _ hy (fun _ d => ⟨_, hy⟩))

private theorem calls_launch :
    (callsCourse cfg).along (spawnJob cfg) (callsCourse cfg).handover (Ledger.init cfg, []) := by
  refine emit_along _ Plays.nil (.created cfg.spec cfg.createdAt rfl) (fun x h => ?_)
  refine quiet_along rfl _ h (fun permitted d => ?_)
  cases permitted with
  | false => exact ⟨_, h⟩
  | true =>
      refine quiet_along rfl _ h (fun start d => ?_)
      have hopen : (callsCourse cfg).along (openRawLog cfg) (fun _ y => Plays cfg y.2 {})
          (d, x.2) := by
        unfold openRawLog
        split
        · exact quiet_along rfl _ h (fun _ d => h)
        · exact h
      refine Course.along_seq _ _ _ _ hopen (fun _ y hy => quiet_along rfl _ hy ?_)
      intro spawned d
      cases spawned with
      | error e =>
          refine Course.along_seq _ _ _ _ (finalizeJob_along (d, y.2) hy
            (fun time => .refused e.text time rfl rfl)) (fun _ _ hdone => hdone)
      | ok pid =>
          refine quiet_along rfl _ hy (fun time d => ?_)
          refine emit_along _ hy (.started pid time rfl) (fun z hz => ?_)
          refine quiet_along rfl _ hz (fun _ d => quiet_along rfl _ hz (fun _ d => ?_))
          exact quiet_along rfl _ hz (fun _ d => quiet_along rfl _ hz (fun _ d => hz))

private theorem popOpenPhases_along {exit : ExitCode} {final : Bool} (stack : List Phase)
    (state : DriverState) (hstack : state.phaseStack = stack)
    (hfinal : final = true ∨ (cfg.interpreter && !state.interpDisabled) = false)
    (x : Ledger × List Act)
    (h : Plays cfg x.2
      { stage := .events [] final, state, started := true, exit := some exit }) :
    (callsCourse cfg).along (popOpenPhases cfg stack)
      (fun _ y => ∃ final, (final = true ∨ (cfg.interpreter && !state.interpDisabled) = false) ∧
        Plays cfg y.2
          { stage := .events [] final, state := { state with phaseStack := [] }, started := true,
            exit := some exit }) x := by
  induction stack generalizing state final x with
  | nil =>
      refine ⟨final, hfinal, ?_⟩
      rw [← hstack]
      exact h
  | cons top rest ih =>
      refine quiet_along rfl _ h (fun time d => ?_)
      refine emit_along _ h (.closed time rfl hfinal rfl hstack) (fun y hy => ?_)
      exact ih { state with phaseStack := rest } rfl (Or.inl rfl) y hy

private theorem runOnExit_along {exit : ExitCode} (start : Instant) (state : DriverState)
    (x : Ledger × List Act) (hover : LoopOver x.1.selected)
    (h : Plays cfg x.2 { state, started := true, exit := some exit }) :
    (callsCourse cfg).along (runOnExit cfg start exit state)
      (fun state' y => ∃ final,
        (final = true ∨ (cfg.interpreter && !state'.interpDisabled) = false) ∧
        Owes cfg final (some exit) [] state' y) x := by
  unfold runOnExit
  split
  · next henabled =>
      refine ⟨⟨_, h⟩, fun w => ?_⟩
      have hstep := fun reply => @Play.Step.onExit cfg
        { state, started := true, exit := some exit } _ exit reply rfl henabled rfl
        (interpContext_shows (w.instant - start) state)
      refine ⟨⟨⟨_, h, fun reply => ⟨_, hstep reply⟩⟩, hover⟩, fun w' => ?_⟩
      refine Program.along_mono (fun _ _ h => h) (fun _ _ h => ⟨true, Or.inl rfl, h⟩) _ _ ?_
      exact settleReply_along w'.interp none state _ (h.snoc (hstep w'.interp))
  · next hdisabled => exact ⟨false, Or.inr (eq_false_of_ne_true hdisabled), h⟩

private theorem finishJob_along (v : LoopVars) (x : Ledger × List Act)
    (htracked : Tracked v x.1) (htop : Plays cfg x.2 v.idle) (hended : v.ended = true) :
    (callsCourse cfg).along (finishJob cfg v) (fun _ => (callsCourse cfg).done) x := by
  have hover : LoopOver x.1.selected := htracked.loopOver hended
  obtain ⟨outcome, hexit⟩ := Option.isSome_iff_exists.mp hover.2
  have hstatus : v.exitStatus = some outcome.status := by rw [htracked.status, hexit]; rfl
  have hcode : finalExitCode v.exitStatus = exitCodeOf outcome.status := by
    rw [hstatus]
    cases outcome.status <;> rfl
  rw [LoopVars.idle, hstatus] at htop
  unfold finishJob
  rw [hcode]
  refine Course.along_seq _ _ _ x (runOnExit_along v.start v.state x hover htop) ?_
  rintro state y ⟨final, hfinal, hy⟩
  rw [exitOpenPhases, Program.bind_assoc]
  refine Course.along_seq _ _ _ y (popOpenPhases_along state.phaseStack state rfl hfinal y hy) ?_
  rintro _ z ⟨final, hfinal, hz⟩
  refine quiet_along rfl _ hz (fun _ d => quiet_along rfl _ hz (fun cancelled d => ?_))
  exact finalizeJob_along (d, z.2) hz
    (fun time => .finalized cancelled v.timedOut time rfl hfinal rfl rfl)

private theorem calls_held : (callsCourse cfg).Held where
  launch := calls_launch
  turn v x r htracked _ htop _ hoffer := by
    cases r with
    | line stream result =>
        rcases result with _ | _ | text
        · cases stream <;> exact htop
        · cases stream <;> exact htop
        · exact Course.along_seq _ _ _ _ (processLine_along v stream text _ htop)
            (fun _ _ h => h)
    | exit result =>
        have hnone : exitIn x.1.selected = none := by simpa [hoffer.1] using htracked.exited
        have hfirst : v.idle.exit = none := by rw [LoopVars.idle, htracked.status, hnone]; rfl
        refine quiet_along rfl _ htop (fun time d => ?_)
        refine emit_along _ htop (.exited _ time rfl hfirst) (fun y hy => ?_)
        exact quiet_along rfl _ hy (fun _ d => quiet_along rfl _ hy (fun _ d => hy))
  finish v x htracked htop hended := finishJob_along v x htracked htop hended

end Held

/-! The acts of a run. -/

/-- The act of a step. -/
def Sys.acts (s : Sys) : Label → List Act
  | .driver w =>
      match s.ctl with
      | .run (.op (.send e) _) => [.sent e]
      | .run (.op (.onLine ctx line) _) => [.onLine ctx line w.interp]
      | .run (.op (.onExit ctx exit) _) => [.onExit ctx exit w.interp]
      | _ => []
  | _ => []

/-- The events the driver sends and the calls it makes, in their order. -/
def actsOf (cfg : Config) (ls : List Label) : List Act :=
  Transition.observe (Sys.step cfg) Sys.acts (Sys.init cfg) ls

def Act.event? : Act → Option Event
  | .sent e => some e
  | _ => none

def sentIn (acts : List Act) : List Event := acts.filterMap Act.event?

theorem sentIn_append (acts more : List Act) : sentIn (acts ++ more) = sentIn acts ++ sentIn more :=
  List.filterMap_append ..

/-- A state of a job whose acts so far are `acts`. -/
structure Sys.Keeps (cfg : Config) (acts : List Act) (s : Sys) : Prop where
  play : ∃ play, Plays cfg acts play
  next : ∀ o k, s.ctl = .run (.op o k) → o.Playable cfg (s.ledger cfg, acts)
  top : ∀ v, s.ctl = .top v → Plays cfg acts v.idle
  sent : s.sent = sentIn acts

section Steps

variable {cfg : Config} {s t : Sys} {l : Label} {g g' : List Act}

private theorem Op.Playable.play {o : Op} {x : Ledger × List Act} (h : o.Playable cfg x) :
    ∃ play, Plays cfg x.2 play := by
  cases o with
  | send e =>
      obtain ⟨play, _, hplay, _⟩ := h
      exact ⟨play, hplay⟩
  | onLine ctx line =>
      obtain ⟨play, hplay, _⟩ := h
      exact ⟨play, hplay⟩
  | onExit ctx exit =>
      obtain ⟨⟨play, hplay, _⟩, _⟩ := h
      exact ⟨play, hplay⟩
  | _ => exact h

private theorem moved_acts (h : (callsCourse cfg).Moved g s l t g') :
    g' = g ++ s.acts l ∧ t.sent = s.sent ++ sentIn (s.acts l) := by
  have haside : s.acts l = [] → g' = g → t.sent = s.sent →
      g' = g ++ s.acts l ∧ t.sent = s.sent ++ sentIn (s.acts l) := by
    intro hacts hg hsent
    rw [hacts, hg, hsent]
    exact ⟨(List.append_nil _).symm, (List.append_nil _).symm⟩
  cases h with
  | op w o k hctl ht =>
      have hsent : t.sent = (s.act cfg w o).2.sent := by rw [ht]
      cases o with
      | send e | onLine ctx line | onExit ctx exit =>
          have hacts := show s.acts (.driver w) = _ by rw [Sys.acts, hctl]
          rw [hacts, hsent]
          exact ⟨rfl, by first | rfl | exact (List.append_nil _).symm⟩
      | openRawFile | spawnChild | writeRaw | upsertSnapshot =>
          refine haside (by rw [Sys.acts, hctl]) rfl (hsent.trans ?_)
          simp only [Sys.act, Sys.upsertSnapshot]
          repeat' split
          all_goals rfl
      | _ => exact haside (by rw [Sys.acts, hctl]) rfl hsent
  | turn w h =>
      obtain ⟨v, hctl, -⟩ := h.head
      exact haside (by rw [Sys.acts, hctl]) rfl h.sent
  | wait c w h =>
      exact haside rfl rfl (congrArg Ledger.sent (Sys.waitStep_move h).frame.2.2)
  | world l h =>
      have hacts : s.acts l = [] := by
        cases h with
        | group l g hl => cases l <;> first | rfl | cases hl
        | _ => rfl
      exact haside hacts rfl (congrArg Ledger.sent (h.frame cfg).2.2)

/-- Every run of a job keeps to the protocol. -/
theorem acts_keep {ls : List Label}
    (hrun : Transition.run (Sys.step cfg) (Sys.init cfg) ls = some s) :
    s.Keeps cfg (actsOf cfg ls) := by
  obtain ⟨g, hat, rfl, hsent⟩ := calls_held.run_induction
    (fun done g s => g = actsOf cfg done ∧ s.sent = sentIn g)
    (Transition.stepsMeet_of_forall (P := fun _ _ => True) (fun _ _ => trivial) _ _) hrun
    ⟨rfl, rfl⟩ (by
      rintro done g s l t g' hdone ht hat hat' ⟨rfl, hsent⟩ - hmoved
      obtain ⟨hacts, hmore⟩ := moved_acts hmoved
      refine ⟨?_, by rw [hmore, hsent, hacts, sentIn_append]⟩
      rw [hacts, actsOf, actsOf, Transition.observe_snoc Sys.acts hdone])
  have hnext : ∀ o k, s.ctl = .run (.op o k) → o.Playable cfg (s.ledger cfg, actsOf cfg ls) := by
    intro o k hctl
    rw [hctl] at hat
    exact hat.1
  have htop : ∀ v, s.ctl = .top v → Plays cfg (actsOf cfg ls) v.idle := by
    intro v hctl
    rw [hctl] at hat
    exact hat
  refine ⟨?_, hnext, htop, hsent⟩
  cases hctl : s.ctl with
  | run p =>
      cases p with
      | ret next =>
          rw [hctl] at hat
          cases next with
          | loop v => exact ⟨_, hat⟩
          | returned => exact hat
      | op o k => exact (hnext o k hctl).play
  | top v => exact ⟨_, htop v hctl⟩
  | returned =>
      rw [hctl] at hat
      exact hat

end Steps

end Execra
