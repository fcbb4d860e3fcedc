import Execra.Job.Loop

/-!
The lifecycle a job's events tell. `LifecycleWord` is the language of whole
jobs; `Life` is the automaton that reads it, one state for each stage, and
`lifeOf` runs it over a log. The driver keeps its own events in the language,
and the loop is over before it sends `Finalized`.
-/

namespace Execra

open Program

/-- `Event::Cancelled` is the one event the wait task sends. -/
def EventBody.isCancelled : EventBody → Bool
  | .cancelled => true
  | _ => false

def EventBody.isLifecycle : EventBody → Bool
  | .jobCreated _ | .jobStarted _ | .exited _ | .finalized _ | .cancelled => true
  | _ => false

/-- What stands between `JobStarted` and `Finalized`: one `Exited`, before it
at most one `Cancelled`, and otherwise only events outside the lifecycle. -/
def LifecycleMiddle (w : List EventBody) : Prop :=
  ∃ before code after, w = before ++ .exited code :: after ∧
    before.countP EventBody.isCancelled ≤ 1 ∧
    (∀ b ∈ before, b.isLifecycle = true → b = .cancelled) ∧
    (∀ b ∈ after, b.isLifecycle = false)

/-- The two shapes of a whole job. -/
inductive LifecycleWord : List EventBody → Prop where
  | spawnFailed (command outcome) :
      LifecycleWord [.jobCreated command, .finalized outcome]
  | started (command pid w outcome) (hmiddle : LifecycleMiddle w) :
      LifecycleWord (.jobCreated command :: .jobStarted pid :: (w ++ [.finalized outcome]))

/-- The stage a job has reached. `failed` and `finalized` are the ends of the
two shapes. -/
inductive Life where
  | fresh | created | failed | started (cancelSent : Bool) | exited | finalized
deriving DecidableEq, Repr

def Life.step : Life → EventBody → Option Life
  | .fresh, .jobCreated _ => some .created
  | .created, .jobStarted _ => some (.started false)
  | .created, .finalized _ => some .failed
  | .started false, .cancelled => some (.started true)
  | .started _, .exited _ => some .exited
  | .started c, body => if body.isLifecycle then none else some (.started c)
  | .exited, .finalized _ => some .finalized
  | .exited, body => if body.isLifecycle then none else some .exited
  | _, _ => none

/-- What an event can do to the stage. -/
inductive Life.Moves : Life → EventBody → Life → Prop where
  | created (command) : Moves .fresh (.jobCreated command) .created
  | started (pid) : Moves .created (.jobStarted pid) (.started false)
  | failed (outcome) : Moves .created (.finalized outcome) .failed
  | cancelled : Moves (.started false) .cancelled (.started true)
  | exited (c code) : Moves (.started c) (.exited code) .exited
  | running (c) {body} (hout : body.isLifecycle = false) : Moves (.started c) body (.started c)
  | finalized (outcome) : Moves .exited (.finalized outcome) .finalized
  | drained {body} (hout : body.isLifecycle = false) : Moves .exited body .exited

theorem Life.Moves.of_step {life life' : Life} {body : EventBody}
    (h : life.step body = some life') : life.Moves body life' := by
  cases life with
  | fresh =>
      cases body <;> cases h
      exact .created _
  | created =>
      cases body <;> cases h
      · exact .started _
      · exact .failed _
  | started c =>
      cases body with
      | exited code => cases c <;> cases h <;> exact .exited _ code
      | cancelled =>
          cases c <;> cases h
          exact .cancelled
      | jobCreated | jobStarted | finalized => cases c <;> cases h
      | _ => cases c <;> cases h <;> exact .running _ rfl
  | exited =>
      cases body with
      | finalized outcome =>
          cases h
          exact .finalized outcome
      | jobCreated | jobStarted | exited | cancelled => cases h
      | _ =>
          cases h
          exact .drained rfl
  | failed | finalized => cases body <;> cases h

theorem Life.Moves.step {life life' : Life} {body : EventBody} (h : life.Moves body life') :
    life.step body = some life' := by
  cases h with
  | created | started | failed | cancelled | finalized => rfl
  | exited c => cases c <;> rfl
  | running c hout => cases body <;> first | (cases c <;> rfl) | cases hout
  | drained hout => cases body <;> first | rfl | cases hout

/-- The stage a log has reached; `none` when it leaves the language. -/
def lifeOf (log : List Event) : Option Life :=
  Transition.run (fun life e => life.step e.body) .fresh log

theorem lifeOf_append {log : List Event} {life life' : Life} {e : Event}
    (h : lifeOf log = some life) (hstep : life.step e.body = some life') :
    lifeOf (log ++ [e]) = some life' :=
  (Transition.run_snoc_iff _ _ _ _).mpr ⟨life, h, hstep⟩

/-- What a log that reached a stage looks like. -/
def Life.Shape : Life → List EventBody → Prop
  | .fresh, w => w = []
  | .created, w => ∃ command, w = [.jobCreated command]
  | .started c, w => ∃ command pid before,
      w = .jobCreated command :: .jobStarted pid :: before ∧
        before.countP EventBody.isCancelled = c.toNat ∧
        ∀ b ∈ before, b.isLifecycle = true → b = .cancelled
  | .exited, w => ∃ command pid middle,
      w = .jobCreated command :: .jobStarted pid :: middle ∧ LifecycleMiddle middle
  | .failed, w => ∃ command outcome, w = [.jobCreated command, .finalized outcome]
  | .finalized, w => ∃ command pid middle outcome,
      w = .jobCreated command :: .jobStarted pid :: (middle ++ [.finalized outcome]) ∧
        LifecycleMiddle middle

private theorem outside {body : EventBody} (h : body.isLifecycle = false) :
    body.isCancelled = false := by
  cases body <;> first | rfl | cases h

/-- One event takes the shape of a stage to the shape of the next one. -/
theorem Life.shape_step {life life' : Life} {w : List EventBody} {body : EventBody}
    (h : life.Shape w) (hstep : life.step body = some life') :
    life'.Shape (w ++ [body]) := by
  cases Moves.of_step hstep with
  | created command =>
      subst h
      exact ⟨command, rfl⟩
  | started pid =>
      obtain ⟨command, rfl⟩ := h
      exact ⟨command, pid, [], rfl, rfl, List.forall_mem_nil _⟩
  | failed outcome =>
      obtain ⟨command, rfl⟩ := h
      exact ⟨command, outcome, rfl⟩
  | cancelled =>
      obtain ⟨command, pid, before, rfl, hcount, hinner⟩ := h
      refine ⟨command, pid, before ++ [.cancelled], by simp, ?_, ?_⟩
      · simpa [EventBody.isCancelled] using hcount
      · intro b hb hb'
        rcases List.mem_append.mp hb with hb | hb
        · exact hinner b hb hb'
        · exact List.mem_singleton.mp hb
  | exited c code =>
      obtain ⟨command, pid, before, rfl, hcount, hinner⟩ := h
      refine ⟨command, pid, before ++ [.exited code], by simp, before, code, [], rfl, ?_, hinner,
        List.forall_mem_nil _⟩
      rw [hcount]
      exact Bool.toNat_le c
  | running c hout =>
      obtain ⟨command, pid, before, rfl, hcount, hinner⟩ := h
      refine ⟨command, pid, before ++ [body], by simp, by simp [outside hout, hcount], ?_⟩
      intro b hb hb'
      rcases List.mem_append.mp hb with hb | hb
      · exact hinner b hb hb'
      · rw [List.mem_singleton.mp hb, hout] at hb'
        cases hb'
  | finalized outcome =>
      obtain ⟨command, pid, middle, rfl, hmiddle⟩ := h
      exact ⟨command, pid, middle, outcome, rfl, hmiddle⟩
  | drained hout =>
      obtain ⟨command, pid, middle, rfl, before, code, after, rfl, hcount, hbefore, hafter⟩ := h
      refine ⟨command, pid, before ++ .exited code :: (after ++ [body]), by simp, before, code,
        after ++ [body], rfl, hcount, hbefore, ?_⟩
      intro b hb
      rcases List.mem_append.mp hb with hb | hb
      · exact hafter b hb
      · rw [List.mem_singleton.mp hb, hout]

theorem Life.shape_of_run {log : List Event} {life : Life} (h : lifeOf log = some life) :
    life.Shape (log.map Event.body) := by
  have hstart : Life.Shape .fresh [] := rfl
  unfold lifeOf at h
  refine Transition.run_induction (P := fun _ _ => True)
    (fun log life => life.Shape (log.map Event.body)) hstart ?_
    (Transition.stepsMeet_of_forall (fun _ _ => trivial) _ _) h
  intro log life e life' hshape _ hstep
  simpa using Life.shape_step hshape hstep

/-- At every stage the log can still become a word of the language. -/
theorem Life.prefix_word {life : Life} {w : List EventBody} (h : life.Shape w) :
    ∃ word, LifecycleWord word ∧ w <+: word := by
  have hexit : ExitCode := { code := none, signal := none }
  cases life with
  | fresh =>
      subst h
      exact ⟨_, .spawnFailed { program := "" } (.cancelled []), List.nil_prefix⟩
  | created =>
      obtain ⟨command, rfl⟩ := h
      exact ⟨_, .spawnFailed command (.cancelled []), [.finalized (.cancelled [])], rfl⟩
  | started c =>
      obtain ⟨command, pid, before, rfl, hcount, hbefore⟩ := h
      have hmiddle : LifecycleMiddle (before ++ [.exited hexit]) :=
        ⟨before, hexit, [], rfl, hcount ▸ Bool.toNat_le c, hbefore, by simp⟩
      exact ⟨_, .started command pid _ (.cancelled []) hmiddle,
        [.exited hexit, .finalized (.cancelled [])], by simp⟩
  | exited =>
      obtain ⟨command, pid, middle, rfl, hmiddle⟩ := h
      exact ⟨_, .started command pid _ (.cancelled []) hmiddle,
        [.finalized (.cancelled [])], by simp⟩
  | failed =>
      obtain ⟨command, outcome, rfl⟩ := h
      exact ⟨_, .spawnFailed command outcome, List.prefix_rfl⟩
  | finalized =>
      obtain ⟨command, pid, middle, outcome, rfl, hmiddle⟩ := h
      exact ⟨_, .started command pid middle outcome hmiddle, List.prefix_rfl⟩

/-! The driver's part. -/

/-- The loop is over: both streams are done and the exit has been received. -/
def LoopOver (rs : List SelectResult) : Prop :=
  (∀ stream, endedIn stream rs = true) ∧ (exitIn rs).isSome

theorem LoopVars.Tracks.loopOver {v : LoopVars} {rs : List SelectResult} (h : v.Tracks rs)
    (hended : v.ended = true) : LoopOver rs := by
  simp only [LoopVars.ended, Bool.and_eq_true] at hended
  obtain ⟨⟨hout, herr⟩, hexited⟩ := hended
  refine ⟨fun stream => ?_, by rw [← h.exited, hexited]⟩
  rw [← h.done]
  cases stream <;> assumption

/-- The one wait task of the job watches its child. -/
def Ledger.Attended (d : Ledger) : Prop :=
  ∃ pid, d.child = some pid ∧ d.waitTasks = [ProcessGroup.assign (some pid)]

/-- What the rest of the ledger says at a stage the driver's events reached. -/
def Ledger.Agrees (d : Ledger) : Life → Prop
  | .fresh | .created | .failed => d.waitTasks = []
  | .started c => c = false ∧ (d.waitTasks = [] ∨ d.Attended) ∧ d.verdict = none
  | .exited => d.Attended ∧ (exitIn d.selected).isSome
  | .finalized => d.Attended ∧ LoopOver d.selected

/-- The driver's own events have reached the stage `life`. -/
def Ledger.Reached (d : Ledger) (life : Life) : Prop :=
  lifeOf d.sent = some life ∧ d.Agrees life

def Ledger.InLifecycle (d : Ledger) : Prop := ∃ life, d.Reached life

/-- The stage of a driver at the head of its loop. -/
def runningLife (rs : List SelectResult) : Life :=
  if (exitIn rs).isSome then .exited else .started false

theorem Ledger.Reached.send {d : Ledger} {life life' : Life} {e : Event}
    (h : d.Reached life) (hstep : life.step e.body = some life') (hagrees : d.Agrees life') :
    (d.send e).Reached life' := by
  refine ⟨lifeOf_append h.1 hstep, ?_⟩
  cases life' <;> exact hagrees

/-- Interpreter events are outside the lifecycle. -/
theorem EventBody.isMetadata_outside {body : EventBody} (h : body.isMetadata = true) :
    body.isLifecycle = false := by
  cases body <;> first | rfl | cases h

theorem runningLife_step (rs : List SelectResult) {body : EventBody}
    (h : body.isLifecycle = false) :
    (runningLife rs).step body = some (runningLife rs) := by
  unfold runningLife
  split
  · exact (Life.Moves.drained h).step
  · exact (Life.Moves.running false h).step

/-- The driver is between `JobStarted` and `Finalized`. -/
structure Ledger.Running (d : Ledger) : Prop where
  life : lifeOf d.sent = some (runningLife d.selected)
  attended : d.Attended
  unread : d.verdict = none

theorem Ledger.Running.reached {d : Ledger} (h : d.Running) :
    d.Reached (runningLife d.selected) := by
  refine ⟨h.life, ?_⟩
  unfold runningLife
  split
  · next hexit => exact ⟨h.attended, hexit⟩
  · exact ⟨rfl, Or.inr h.attended, h.unread⟩

theorem Ledger.Running.send {d : Ledger} {e : Event} (h : d.Running)
    (hout : e.body.isLifecycle = false) : (d.send e).Running :=
  ⟨lifeOf_append h.life (runningLife_step d.selected hout), h.attended, h.unread⟩

theorem Ledger.Running.metadata {cfg : Config} {d d' : Ledger} (h : d.Running)
    (hmove : d.Metadata cfg d') : d'.Running := by
  cases hmove with
  | send body time hbody => exact h.send (EventBody.isMetadata_outside hbody)
  | update u hu => exact ⟨h.life, h.attended, h.unread⟩
  | newPhase => exact ⟨h.life, h.attended, h.unread⟩

private theorem running_keeps {cfg : Config} (d d' : Ledger) (h : d.Running)
    (hmove : d.Metadata cfg d') : d'.InLifecycle ∧ d'.Running :=
  ⟨⟨_, (h.metadata hmove).reached⟩, h.metadata hmove⟩

/-- The end of `drive_job` from a stage that admits `Finalized`. -/
private theorem finalizeJob_life {cfg : Config} {d : Ledger} {life : Life} (life' : Life)
    (h : d.Reached life) (outcome : Outcome)
    (hstep : life.step (.finalized outcome) = some life') (hagrees : d.Agrees life') :
    Driver.wp cfg (fun _ d' => d'.InLifecycle) (finalizeJob cfg outcome)
      (fun _ => Ledger.InLifecycle) d := by
  refine Driver.wp_finalizeJob ?_
  intro ok time finalized stored sent
  have hstored : stored.closeRaw.Reached life := h
  have hsent : sent.Reached life' := hstored.send hstep hagrees
  exact ⟨Or.inr ⟨_, h⟩, Or.inr ⟨_, h⟩, Or.inr ⟨_, h⟩, Or.inr ⟨_, hsent⟩,
    Or.inr ⟨_, hsent⟩, ⟨_, hsent⟩⟩

private def lifeSpec (cfg : Config) : Spec cfg Tracked where
  guarantee _ d' := d'.InLifecycle
  top _ d := d.Running
  done := Ledger.InLifecycle
  launch := by
    refine Driver.wp_spawnJob ?_
    intro opens _ created opened
    have hcreated : created.Reached .created := ⟨rfl, rfl⟩
    refine ⟨Or.inr ⟨_, hcreated⟩, Or.inr ⟨_, hcreated⟩, Or.inr ⟨_, hcreated⟩, ?_, ?_⟩
    · intro error
      exact finalizeJob_life .failed (d := opened.failSpawn) hcreated _ rfl rfl
    · intro start pid
      refine ⟨Or.inr ⟨_, hcreated⟩, Driver.wp_startJob ?_⟩
      intro ok sentAt startedAt sent running stored attended
      have hsent : sent.Reached (.started false) := ⟨rfl, rfl, Or.inl rfl, rfl⟩
      have hrunning : attended.Running := ⟨rfl, ⟨pid, rfl, rfl⟩, rfl⟩
      exact ⟨Or.inr ⟨_, hsent⟩, Or.inr ⟨_, hsent⟩, Or.inr ⟨_, hsent⟩,
        Or.inr ⟨_, hrunning.reached⟩, hrunning⟩
  turn := by
    intro v d r htracked htop _ hoffer
    cases r with
    | line stream result =>
        have hselect : (d.select (.line stream result)).Running := by
          refine ⟨?_, htop.attended, htop.unread⟩
          have hsame : exitIn (d.selected ++ [.line stream result]) = exitIn d.selected := by
            simp [exitIn_append, SelectResult.exit?]
          simpa [runningLife, hsame] using htop.life
        refine ⟨⟨_, hselect.reached⟩, ?_⟩
        rcases result with _ | _ | text
        · exact hselect
        · exact hselect
        · refine Driver.wp_lineTurn (Driver.wp_processLine ?_)
          intro time written kept sent
          have hkept : kept.Running := ⟨hselect.life, hselect.attended, hselect.unread⟩
          have hsent : sent.Running := hkept.send rfl
          exact ⟨Or.inr ⟨_, hselect.reached⟩, Or.inr ⟨_, hselect.reached⟩,
            Or.inr ⟨_, hsent.reached⟩,
            interpretLine_keeps running_keeps v.start _ v.state sent hsent⟩
    | exit result =>
        obtain ⟨hfirst, hsome⟩ := hoffer
        obtain ⟨outcome, rfl⟩ := Option.isSome_iff_exists.mp hsome
        have hnone : exitIn d.selected = none := by
          simpa [hfirst] using htracked.exited
        have hlife : lifeOf d.sent = some (.started false) := by
          simpa [runningLife, hnone] using htop.life
        have hexit : (exitIn (d.selected ++ [.exit (some outcome)])).isSome := by
          simp [exitIn_append, hnone, SelectResult.exit?]
        have hselect : (d.select (.exit (some outcome))).Reached (.started false) :=
          ⟨hlife, rfl, Or.inr htop.attended, htop.unread⟩
        refine ⟨⟨_, hselect⟩, Driver.wp_receiveExit ?_⟩
        intro ok time sent exited next
        have hsent : sent.Running := by
          refine ⟨?_, htop.attended, htop.unread⟩
          have hrun : runningLife sent.selected = .exited := if_pos hexit
          rw [hrun]
          exact lifeOf_append hlife rfl
        have hstored : (exited.upsert ok).Running := ⟨hsent.life, hsent.attended, hsent.unread⟩
        exact ⟨Or.inr ⟨_, hsent.reached⟩, Or.inr ⟨_, hsent.reached⟩,
          Or.inr ⟨_, hsent.reached⟩, hstored⟩
  finish := by
    intro v d htracked htop hended
    have hover : LoopOver d.selected := htracked.loopOver hended
    have hkeep : ∀ d₁ d₂ : Ledger, d₁.Running ∧ LoopOver d₁.selected → d₁.Metadata cfg d₂ →
        d₂.InLifecycle ∧ d₂.Running ∧ LoopOver d₂.selected := by
      intro d₁ d₂ h hmove
      refine ⟨⟨_, (h.1.metadata hmove).reached⟩, h.1.metadata hmove, ?_⟩
      cases hmove <;> exact h.2
    refine finishJob_keeps hkeep v d ⟨htop, hover⟩ ?_
    rintro cancelled state d' ⟨hd', hover'⟩ -
    have hreached : d'.Reached .exited := by
      have h := hd'.reached
      rwa [runningLife, if_pos hover'.2] at h
    exact ⟨Or.inr ⟨_, hreached⟩,
      finalizeJob_life .finalized (d := d'.judge cancelled) hreached _ rfl
        ⟨hd'.attended, hover'⟩⟩

/-- The driver's events never leave the language. -/
theorem Sys.Reachable.inLifecycle {cfg : Config} {s : Sys} (hs : Sys.Reachable cfg s) :
    (s.ledger cfg).InLifecycle :=
  (lifeSpec cfg).always (tracked_of_top cfg) ⟨.fresh, rfl, rfl⟩ (fun _ _ _ h => h) hs

end Execra
