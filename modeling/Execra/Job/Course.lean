import Execra.Job.Phases

/-!
The loop rule for assertions about the driver's program. A `Spec` speaks of
the ledger before and after an operation; a `Course` speaks of the ledger and
of what the driver is still going to do, which is what it takes to say that an
event is stamped but not sent, or sent but not stored. A ghost value that only
the driver's operations move may be carried along.
-/

namespace Execra

open Program

/-- A proof about what the driver has done and what it is going to do. -/
structure Course (cfg : Config) (γ : Type) where
  /-- The ghost value after an operation and its answer. -/
  ghost : (o : Op) → o.Ans → γ → γ
  start : γ
  /-- Holds whenever an operation of the driver is about to run. -/
  here : {α : Type} → Driver α → Ledger × γ → Prop
  bind : ∀ {α β : Type} (f : α → Driver β) (o : Op) (k : o.Ans → Driver α) x,
    here (.op o k) x → here (.op o k >>= f) x
  top : LoopVars → Ledger × γ → Prop
  done : Ledger × γ → Prop

namespace Course

variable {cfg : Config} {γ : Type} (C : Course cfg γ)

def act (w : Oracle) (o : Op) (x : Ledger × γ) : o.Ans × (Ledger × γ) :=
  let r := Ledger.act cfg w o x.1
  (r.1, r.2, C.ghost o r.1 x.2)

abbrev along {α : Type} (p : Driver α) (Q : α → Ledger × γ → Prop) (x : Ledger × γ) : Prop :=
  Program.along C.act C.here Q p x

/-- Where a program of the driver hands over. -/
def handover : Next → Ledger × γ → Prop
  | .loop v, x => C.top v x
  | .returned, x => C.done x

/-- The rule of sequencing. -/
theorem along_bind {α β : Type} {Q : β → Ledger × γ → Prop} (p : Driver α) (f : α → Driver β)
    (x : Ledger × γ) (h : C.along p (fun a y => C.along (f a) Q y) x) :
    C.along (p >>= f) Q x :=
  Program.along_bind (C.bind f) p x h

theorem along_seq {α β : Type} {Q : α → Ledger × γ → Prop} {R : β → Ledger × γ → Prop}
    (p : Driver α) (f : α → Driver β) (x : Ledger × γ) (h : C.along p Q x)
    (hf : ∀ a y, Q a y → C.along (f a) R y) : C.along (p >>= f) R x :=
  C.along_bind p f x (Program.along_mono (fun _ _ h => h) hf p x h)

/-- The course is held by the three programs of the driver. -/
structure Held : Prop where
  launch : C.along (spawnJob cfg) C.handover (Ledger.init cfg, C.start)
  turn : ∀ v x r, Tracked v x.1 → x.1.InLifecycle → C.top v x → v.ended = false → v.Offers r →
    C.along (loopTurn cfg v r) C.handover (x.1.select r, x.2)
  finish : ∀ v x, Tracked v x.1 → C.top v x → v.ended = true →
    C.along (finishJob cfg v) (fun _ => C.done) x

/-- What a course says of a driver that stands at `c`. -/
def At (x : Ledger × γ) : Ctl → Prop
  | .run p => C.along p C.handover x
  | .top v => C.top v x
  | .returned => C.done x

variable {C}

private theorem settled {p : Driver Next} {x : Ledger × γ} (h : C.along p C.handover x) :
    C.At x (settle p) := by
  cases p with
  | ret next => cases next <;> exact h
  | op o k => exact h

theorem At.op {w : Oracle} {o : Op} {k : o.Ans → Driver Next} {x : Ledger × γ}
    (h : C.At x (.run (.op o k))) :
    C.At (C.act w o x).2 (settle (k (C.act w o x).1)) :=
  settled (h.2 w)

/-- A step of the driver that is no operation: it leaves the head of its loop,
polls, or starts a turn. -/
structure Turned (cfg : Config) (s t : Sys) : Prop where
  head : ∃ v, s.ctl = .top v ∧ (t.ctl = .top v ∨ t.ctl = settle (exitLoop cfg v) ∨
    ∃ r, t.ctl = settle (loopTurn cfg v r))
  snapshot : t.snapshot = s.snapshot
  log : t.log = s.log
  sent : t.sent = s.sent
  store : t.store = s.store
  wait : t.wait = s.wait

/-- A step of the job and what it does to the ghost value. -/
inductive Moved (C : Course cfg γ) (g : γ) (s : Sys) : Label → Sys → γ → Prop where
  | op (w : Oracle) (o : Op) (k : o.Ans → Driver Next) {t} (hctl : s.ctl = .run (.op o k))
      (ht : t = { (s.act cfg w o).2 with ctl := settle (k (s.act cfg w o).1) }) :
      Moved C g s (.driver w) t (C.ghost o (s.act cfg w o).1 g)
  | turn (w : Oracle) {t} (h : Turned cfg s t) : Moved C g s (.driver w) t g
  | wait (c : WaitChoice) (w : Oracle) {t} (h : s.waitStep cfg w c = some t) :
      Moved C g s (.wait c w) t g
  | world (l : Label) {t} (h : s.WorldMove l t) : Moved C g s l t g

theorem At.start (hC : C.Held) : C.At ((Sys.init cfg).ledger cfg, C.start)
    (Sys.init cfg).ctl := by
  rw [Sys.init_ledger]
  exact settled hC.launch

private theorem Turned.of_move {s t : Sys} {v : LoopVars} (hctl : s.ctl = .top v)
    (h : s.DriverMove cfg t) : Turned cfg s t := by
  cases h with
  | op w o k hrun => rw [hctl] at hrun; cases hrun
  | pending v hctl' => exact ⟨⟨v, hctl', Or.inl hctl'⟩, rfl, rfl, rfl, rfl, rfl⟩
  | leave v hctl' => exact ⟨⟨v, hctl', Or.inr (Or.inl rfl)⟩, rfl, rfl, rfl, rfl, rfl⟩
  | stdout v result hctl' =>
      exact ⟨⟨v, hctl', Or.inr (Or.inr ⟨.line .stdout result, rfl⟩)⟩, rfl, rfl, rfl, rfl, rfl⟩
  | stderr v result hctl' =>
      exact ⟨⟨v, hctl', Or.inr (Or.inr ⟨.line .stderr result, rfl⟩)⟩, rfl, rfl, rfl, rfl, rfl⟩
  | exit v outcome hctl' =>
      exact ⟨⟨v, hctl', Or.inr (Or.inr ⟨.exit (some outcome), rfl⟩)⟩, rfl, rfl, rfl, rfl, rfl⟩

/-- At the head of the loop the driver goes on as the course says. -/
private theorem Held.turned (hC : C.Held) {s t : Sys} {g : γ} {v : LoopVars}
    (hs : Sys.Reachable cfg s) (hat : C.At (s.ledger cfg, g) s.ctl) (hctl : s.ctl = .top v)
    (h : s.DriverMove cfg t) : C.At (t.ledger cfg, g) t.ctl := by
  have htracked := tracked_of_top cfg s v hs hctl
  rw [hctl] at hat
  rcases h.ledger_cases hs.snapshot_id with
    ⟨w, o, k, hctl', -, -⟩ | ⟨v', hctl', hended, hctl'', hled⟩ | ⟨hctl', hled⟩ |
    ⟨v', r, hctl', hended, hoffer, hctl'', hled⟩
  · rw [hctl] at hctl'; cases hctl'
  · cases hctl.symm.trans hctl'
    rw [hctl'', hled]
    exact settled (C.along_seq _ _ _ (hC.finish v _ htracked hat hended) (fun _ _ h => h))
  · rw [hctl', hctl, hled]
    exact hat
  · cases hctl.symm.trans hctl'
    rw [hctl'', hled]
    exact settled (hC.turn v _ r htracked hs.inLifecycle hat hended hoffer)

/-- A course that is held survives every step of the job. -/
theorem Held.step (hC : C.Held) {s t : Sys} {g : γ} {l : Label} (hs : Sys.Reachable cfg s)
    (hat : C.At (s.ledger cfg, g) s.ctl) (hstep : s.step cfg l = some t) :
    ∃ g', C.Moved g s l t g' ∧ C.At (t.ledger cfg, g') t.ctl := by
  have haside : t.ctl = s.ctl ∧ t.snapshot = s.snapshot ∧ t.ledger cfg = s.ledger cfg →
      C.At (t.ledger cfg, g) t.ctl := by
    rintro ⟨hctl, -, hled⟩
    rw [hctl, hled]
    exact hat
  cases Sys.step_by hstep with
  | driver w h =>
      rcases Sys.driverStep_cases h with ⟨o, k, hctl, rfl⟩ | ⟨v, hctl, hmove⟩
      · refine ⟨_, .op w o k hctl rfl, ?_⟩
        obtain ⟨hans, hled⟩ := s.act_ledger cfg w o hs.snapshot_id
        rw [hctl] at hat
        have hnext := hat.op (w := w.seenIn s)
        change C.At ((s.act cfg w o).2.ledger cfg, _) _
        rw [hled, hans]
        exact hnext
      · exact ⟨g, .turn w (.of_move hctl hmove), hC.turned hs hat hctl hmove⟩
  | wait c w h => exact ⟨g, .wait c w h, haside (Sys.waitStep_move h).frame⟩
  | world _ h => exact ⟨g, .world l h, haside (h.frame cfg)⟩

/-- Induction over a run along a course, the labels taken so far in view. -/
theorem Held.run_induction (hC : C.Held) {P : Sys → Label → Prop}
    (motive : List Label → γ → Sys → Prop) {ls : List Label} {s : Sys}
    (hmeet : Transition.StepsMeet (Sys.step cfg) P (Sys.init cfg) ls)
    (hrun : Transition.run (Sys.step cfg) (Sys.init cfg) ls = some s)
    (hinit : motive [] C.start (Sys.init cfg))
    (hstep : ∀ done g s l t g', Transition.run (Sys.step cfg) (Sys.init cfg) done = some s →
      Sys.Reachable cfg t → C.At (s.ledger cfg, g) s.ctl → C.At (t.ledger cfg, g') t.ctl →
      motive done g s → P s l → C.Moved g s l t g' → motive (done ++ [l]) g' t) :
    ∃ g, C.At (s.ledger cfg, g) s.ctl ∧ motive ls g s := by
  refine Sys.run_induction (fun done s => ∃ g, C.At (s.ledger cfg, g) s.ctl ∧ motive done g s)
    hmeet hrun ⟨C.start, At.start hC, hinit⟩ ?_
  rintro done s l t hdone ⟨g, hat, hI⟩ hP hst
  have hs : Sys.Reachable cfg s := ⟨done, hdone⟩
  obtain ⟨g', hmoved, hat'⟩ := hC.step hs hat hst
  exact ⟨g', hat', hstep done g s l t g' hdone (hs.extend hst) hat hat' hI hP hmoved⟩

/-- The loop rule: a course that is held holds of the driver in every reachable
state of the job. -/
theorem Held.holds (hC : C.Held) {s : Sys} (hs : Sys.Reachable cfg s) :
    ∃ g, C.At (s.ledger cfg, g) s.ctl := by
  obtain ⟨ls, hrun⟩ := hs
  obtain ⟨g, hat, -⟩ := hC.run_induction (P := fun _ _ => True) (fun _ _ _ => True)
    (Transition.stepsMeet_of_forall (fun _ _ => trivial) _ _) hrun trivial
    (fun _ _ _ _ _ _ _ _ _ _ _ _ _ => trivial)
  exact ⟨g, hat⟩

end Course

/-! What the driver does for one interpreter event, by shape. -/

/-- Taking the time comes first; then, according to the event, an update of the
snapshot and an emission that carries that time. -/
inductive Reaction (cfg : Config) (state : DriverState) : Driver DriverState → Prop where
  | quiet (next : DriverState) (hstack : next.phaseStack = state.phaseStack) :
      Reaction cfg state (do
        let _ ← Driver.now
        return next)
  | plain (body : EventBody) (next : DriverState) (hmeta : body.isMetadata = true)
      (hplain : body.isPlain = true) (hstack : next.phaseStack = state.phaseStack) :
      Reaction cfg state (do
        let time ← Driver.now
        emit cfg body time
        return next)
  | told (u : SnapshotUpdate) (body : EventBody) (hmeta : body.isMetadata = true)
      (htold : u.Told body) :
      Reaction cfg state (do
        let time ← Driver.now
        Driver.updateSnapshot u
        emit cfg body time
        return state)
  | enter (name : String) (label : Option String) :
      Reaction cfg state (do
        let time ← Driver.now
        let id ← Driver.newPhaseId
        Driver.updateSnapshot (.phase (some id))
        emit cfg (.phaseEntered id name label) time
        return { state with
          phaseStack := { id, name, label, enteredAt := time } :: state.phaseStack })
  | inside (top : Phase) (rest : List Phase) (label : String)
      (hstack : state.phaseStack = top :: rest) :
      Reaction cfg state (do
        let time ← Driver.now
        emit cfg (.phaseUpdated top.id label) time
        return { state with phaseStack := { top with label := some label } :: rest })
  | leave (top : Phase) (rest : List Phase) (hstack : state.phaseStack = top :: rest) :
      Reaction cfg state (do
        let time ← Driver.now
        Driver.updateSnapshot (.phase (rest.head?.map Phase.id))
        emit cfg (.phaseExited top.id) time
        return { state with phaseStack := rest })

theorem applyEvent_reaction (cfg : Config) (ev : InterpreterEvent) (state : DriverState) :
    Reaction cfg state (applyEvent cfg ev state) := by
  cases ev with
  | enterPhase name label => exact .enter name label
  | updatePhase label =>
      rcases hstack : state.phaseStack with _ | ⟨top, rest⟩ <;> simp only [applyEvent, hstack]
      · exact .plain _ state rfl rfl rfl
      · exact .inside top rest label hstack
  | exitPhase =>
      rcases hstack : state.phaseStack with _ | ⟨top, rest⟩ <;> simp only [applyEvent, hstack]
      · exact .plain _ state rfl rfl rfl
      · exact .leave top rest hstack
  | progress progress => exact .told _ _ rfl (.progress _)
  | label text => exact .told _ _ rfl (.label _)
  | warning code message => exact .plain _ state rfl rfl rfl
  | knownError code message =>
      exact .plain _ { state with knownError := some (code, message) } rfl rfl rfl
  | finding finding =>
      exact .plain _ { state with findings := state.findings ++ [finding] } rfl rfl rfl
  | prompt prompt => exact .plain _ state rfl rfl rfl
  | summary text => exact .quiet { state with summary := some text } rfl

/-- The operations a driver performs for an event of an interpreter. -/
def Op.isReaction : Op → Bool
  | .now | .instant | .newPhaseId | .updateSnapshot _ => true
  | .send e | .insertEvent e => e.body.isMetadata
  | _ => false

namespace Course

variable {cfg : Config} {γ : Type}

/-- An operation before and after which an assertion holds. -/
def Stays (C : Course cfg γ) (J : DriverState → Ledger × γ → Prop) (o : Op) : Prop :=
  ∀ {β : Type} (k : o.Ans → Driver β) (state x), J state x →
    C.here (.op o k) x ∧ ∀ w, J state (C.act w o x).2

/-- An assertion that the driver restores after every event of an interpreter. -/
structure Passes (C : Course cfg γ) (J : DriverState → Ledger × γ → Prop) : Prop where
  instant : C.Stays J .instant
  event : ∀ {p : Driver DriverState} (state x), Reaction cfg state p → J state x → C.along p J x

namespace Passes

variable {C : Course cfg γ} {J : DriverState → Ledger × γ → Prop} (hJ : C.Passes J)

include hJ

theorem applyEvents (evs : List InterpreterEvent) (state : DriverState) (x : Ledger × γ)
    (h : J state x) : C.along (applyEvents cfg evs state) J x := by
  induction evs generalizing state x with
  | nil => exact h
  | cons ev evs ih =>
      rw [Execra.applyEvents]
      exact C.along_seq _ _ x (hJ.event state x (applyEvent_reaction cfg ev state) h) ih

theorem settleReply (reply : InterpreterReply) (line : Option String) (state : DriverState)
    (x : Ledger × γ) (h : J state x) : C.along (settleReply cfg reply line state) J x := by
  cases reply with
  | ok evs => exact hJ.applyEvents evs state x h
  | error panic =>
      exact hJ.event state x (.plain (.interpreterError "interpreter" panic line)
        { state with interpDisabled := true } rfl rfl rfl) h

omit hJ in
private theorem Stays.along {o : Op} (hstays : C.Stays J o) (k : o.Ans → Driver DriverState)
    (state : DriverState) (x : Ledger × γ) (h : J state x)
    (hk : ∀ a y, J state y → C.along (k a) J y) : C.along (.op o k) J x :=
  ⟨(hstays k state x h).1, fun w => hk _ _ ((hstays k state x h).2 w)⟩

theorem interpretLine (hline : ∀ ctx line, C.Stays J (.onLine ctx line)) (start : Instant)
    (line : Line) (state : DriverState) (x : Ledger × γ) (h : J state x) :
    C.along (interpretLine cfg start line state) J x := by
  unfold Execra.interpretLine
  split
  · refine Stays.along hJ.instant _ state x h (fun t y hy => ?_)
    exact Stays.along (hline _ line) _ state y hy
      (fun reply z hz => hJ.settleReply reply _ state z hz)
  · exact h

theorem runOnExit (hexit : ∀ ctx exit, C.Stays J (.onExit ctx exit)) (start : Instant)
    (exit : ExitCode) (state : DriverState) (x : Ledger × γ) (h : J state x) :
    C.along (runOnExit cfg start exit state) J x := by
  unfold Execra.runOnExit
  split
  · refine Stays.along hJ.instant _ state x h (fun t y hy => ?_)
    exact Stays.along (hexit _ exit) _ state y hy
      (fun reply z hz => hJ.settleReply reply _ state z hz)
  · exact h

end Passes

/-! Assertions that do not look at the driver's state. -/

section Stays

variable {C : Course cfg γ} {J : Ledger × γ → Prop} {α : Type} {Q : α → Ledger × γ → Prop}

/-- An operation that keeps an assertion, and what follows it. -/
theorem along_stays {o : Op} (ho : C.Stays (fun _ => J) o) (k : o.Ans → Driver α)
    (x : Ledger × γ) (hx : J x) (hk : ∀ a y, J y → C.along (k a) Q y) :
    C.along (.op o .ret >>= k) Q x :=
  ⟨(ho k {} x hx).1, fun w => hk _ _ ((ho k {} x hx).2 w)⟩

theorem along_emit {body : EventBody} {time : SystemTime}
    (hsend : C.Stays (fun _ => J) (.send { job := cfg.id, body, time }))
    (hinsert : C.Stays (fun _ => J) (.insertEvent { job := cfg.id, body, time }))
    (k : Unit → Driver α) (x : Ledger × γ) (hx : J x)
    (hk : ∀ y, J y → C.along (k ()) Q y) : C.along (emit cfg body time >>= k) Q x :=
  along_stays hsend _ x hx (fun _ y hy => along_stays hinsert _ y hy (fun _ z hz => hk z hz))

end Stays

/-- An assertion that holds between the events a driver emits. -/
structure Keeps (C : Course cfg γ) (J : Ledger × γ → Prop) : Prop where
  now : C.Stays (fun _ => J) .now
  instant : C.Stays (fun _ => J) .instant
  newPhaseId : C.Stays (fun _ => J) .newPhaseId
  update : ∀ u, C.Stays (fun _ => J) (.updateSnapshot u)
  emit : ∀ body time x, body.isMetadata = true → J x →
    C.along (emit cfg body time) (fun _ => J) x

section Keeps

variable {C : Course cfg γ} {J : Ledger × γ → Prop}

/-- Emitting is two operations, either of which may keep the assertion. -/
theorem Keeps.of_stays (h : ∀ o, o.isReaction = true → C.Stays (fun _ => J) o) : C.Keeps J where
  now := h _ rfl
  instant := h _ rfl
  newPhaseId := h _ rfl
  update _ := h _ rfl
  emit body time x hmeta hx :=
    along_emit (h (.send { job := cfg.id, body, time }) hmeta)
      (h (.insertEvent { job := cfg.id, body, time }) hmeta) .ret x hx (fun _ hy => hy)

/-- The assertion holds again after every event of the interpreter. -/
theorem Keeps.passes (h : C.Keeps J) : C.Passes (fun _ => J) where
  instant := h.instant
  event state x hreact hx := by
    have hemit : ∀ {body : EventBody} {next : DriverState}, body.isMetadata = true →
        ∀ time y, J y →
          C.along (Execra.emit cfg body time >>= fun _ => pure next) (fun _ => J) y := by
      intro body next hmeta time y hy
      exact C.along_seq _ _ y (h.emit body time y hmeta hy) (fun _ _ hz => hz)
    cases hreact with
    | quiet next hstack => exact along_stays h.now _ x hx (fun _ _ hy => hy)
    | plain body next hmeta hplain hstack =>
        exact along_stays h.now _ x hx (fun time y hy => hemit hmeta time y hy)
    | told u body hmeta htold =>
        exact along_stays h.now _ x hx (fun time y hy =>
          along_stays (h.update u) _ y hy (fun _ y hy => hemit hmeta time y hy))
    | enter name label =>
        exact along_stays h.now _ x hx (fun time y hy =>
          along_stays h.newPhaseId _ y hy (fun id y hy =>
            along_stays (h.update _) _ y hy (fun _ y hy => hemit rfl time y hy)))
    | inside top rest label hstack =>
        exact along_stays h.now _ x hx (fun time y hy => hemit rfl time y hy)
    | leave top rest hstack =>
        exact along_stays h.now _ x hx (fun time y hy =>
          along_stays (h.update _) _ y hy (fun _ y hy => hemit rfl time y hy))

/-- And it holds when the open phases are closed. -/
theorem Keeps.exitOpenPhases (h : C.Keeps J) (state : DriverState) (x : Ledger × γ) (hx : J x) :
    C.along (exitOpenPhases cfg state) (fun _ => J) x := by
  have hpop : ∀ (stack : List Phase) x, J x → C.along (popOpenPhases cfg stack) (fun _ => J) x := by
    intro stack
    induction stack with
    | nil => exact fun x hx => hx
    | cons top rest ih =>
        exact fun x hx => along_stays h.now _ x hx (fun time y hy =>
          C.along_seq _ _ y (h.emit _ time y rfl hy) (fun _ z hz => ih z hz))
  exact C.along_seq _ _ x (hpop state.phaseStack x hx) (fun _ y hy =>
    along_stays (h.update _) _ y hy (fun _ _ hz => hz))

end Keeps

end Course

end Execra
