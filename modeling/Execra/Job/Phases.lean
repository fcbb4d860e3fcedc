import Execra.Job.Wire

/-!
Invariants about phases. `apply_events` and `exit_open_phases` write the stack
of phases, the snapshot and the stream one after the other; an invariant that
ties the three together holds between two interpreter events and not inside
one. `PhaseInvariant` lists what such an invariant must survive, one field for
each way the driver moves, and the results say where it then holds: at the
head of the select loop, and from the moment `Finalized` is sent.
-/

namespace Execra

open Program

/-- Events that neither open nor close a phase nor stand for a write to the
snapshot. -/
def EventBody.isPlain : EventBody → Bool
  | .jobCreated _ | .outputAppended .. | .warningDetected .. | .knownErrorDetected ..
  | .findingEmitted .. | .promptDetected .. | .interpreterError .. => true
  | _ => false

/-- A write to the snapshot and the event that tells of it. -/
inductive SnapshotUpdate.Told : SnapshotUpdate → EventBody → Prop where
  | running (startedAt pid) : Told (.running startedAt) (.jobStarted pid)
  | progress (progress) : Told (.progress progress) (.progressUpdated progress)
  | label (text) : Told (.label text) (.labelUpdated text)
  | exited (exit) : Told (.exited exit) (.exited exit)
  | finalized (outcome) : Told (.finalized outcome) (.finalized outcome)

/-- No `Finalized` has been sent. -/
def Ledger.Quiet (d : Ledger) : Prop := ∀ e ∈ d.sent, ∀ outcome, e.body ≠ .finalized outcome

theorem Ledger.Quiet.send {d : Ledger} (h : d.Quiet) {e : Event}
    (hbody : ∀ outcome, e.body ≠ .finalized outcome) : (d.send e).Quiet := by
  intro e' he'
  rcases List.mem_append.mp he' with he' | he'
  · exact h e' he'
  · exact List.mem_singleton.mp he' ▸ hbody

theorem Ledger.quiet_init (cfg : Config) : (Ledger.init cfg).Quiet := by
  intro e he
  cases he

/-- An invariant `inv` about the open phases, innermost first, and the ledger;
`closing` is what is left of it while `exit_open_phases` pops the stack. -/
structure PhaseInvariant (cfg : Config) where
  inv : List PhaseId → Ledger → Prop
  closing : List PhaseId → Ledger → Prop
  init : inv [] (Ledger.init cfg)
  frame : ∀ {stack d d'}, inv stack d → d'.snapshot = d.snapshot → d'.sent = d.sent →
    d'.phasesMade = d.phasesMade → inv stack d'
  plain : ∀ {stack d body} time, inv stack d → body.isPlain = true →
    inv stack (d.send { job := cfg.id, body, time })
  told : ∀ {stack d u body} time, inv stack d → u.Told body →
    inv stack ((d.update u).send { job := cfg.id, body, time })
  enter : ∀ {stack d} name label time, inv stack d →
    let phase := cfg.phaseIds d.phasesMade
    inv (phase :: stack) ((d.tookId.update (.phase (some phase))).send
      { job := cfg.id, body := .phaseEntered phase name label, time })
  inside : ∀ {top rest d} label time, inv (top :: rest) d →
    inv (top :: rest) (d.send { job := cfg.id, body := .phaseUpdated top label, time })
  leave : ∀ {top rest d} time, inv (top :: rest) d →
    inv rest ((d.update (.phase rest.head?)).send
      { job := cfg.id, body := .phaseExited top, time })
  close : ∀ {stack d}, inv stack d → closing stack d
  pop : ∀ {top rest d} time, closing (top :: rest) d →
    closing rest (d.send { job := cfg.id, body := .phaseExited top, time })
  closed : ∀ {d}, closing [] d → inv [] (d.update (.phase none))

namespace PhaseInvariant

variable {cfg : Config} (P : PhaseInvariant cfg)

/-- The invariant at the end of a job. -/
def AtEnd (d : Ledger) : Prop := d.Quiet ∨ P.inv [] d

/-- The invariant between two events of an interpreter. -/
def Between (state : DriverState) (d : Ledger) : Prop :=
  d.Quiet ∧ P.inv (state.phaseStack.map Phase.id) d

/-- What the rest of the job may rely on at every change of the ledger. -/
def Guarantee (_ d' : Ledger) : Prop := P.AtEnd d'

private theorem quiet {d d' : Ledger} (h : d'.Quiet) : Respects P.Guarantee d d' :=
  Or.inr (Or.inl h)

private theorem sendPlain {state : DriverState} {d : Ledger} (h : P.Between state d)
    (body : EventBody) (time : SystemTime) (hplain : body.isPlain = true) :
    P.Between state (d.send { job := cfg.id, body, time }) := by
  refine ⟨h.1.send (fun outcome heq => ?_), P.plain time h.2 hplain⟩
  simp only at heq
  rw [heq] at hplain
  cases hplain

/-- One event of an interpreter keeps the invariant. -/
theorem applyEvent_between (ev : InterpreterEvent) (state : DriverState) (d : Ledger)
    (h : P.Between state d) :
    Driver.wp cfg P.Guarantee (applyEvent cfg ev state) P.Between d := by
  obtain ⟨hquiet, hinv⟩ := h
  cases ev with
  | enterPhase name label =>
      simp only [applyEvent, wp_bind, Driver.wp_now, Driver.wp_newPhaseId,
        Driver.wp_updateSnapshot, Driver.wp_emit, wp_pure]
      intro t
      exact ⟨P.quiet hquiet, P.quiet hquiet, P.quiet (hquiet.send (fun _ => by simp)),
        hquiet.send (fun _ => by simp), P.enter name label t hinv⟩
  | updatePhase label =>
      rcases hstack : state.phaseStack with _ | ⟨top, rest⟩ <;>
        simp only [applyEvent, hstack, emitInterpError, wp_bind, Driver.wp_now,
          Driver.wp_emit, wp_pure] <;> intro t
      · have hsent := P.sendPlain ⟨hquiet, hinv⟩ (.interpreterError "interpreter"
          "UpdatePhase with empty phase stack" none) t rfl
        exact ⟨P.quiet hsent.1, hsent⟩
      · rw [hstack] at hinv
        exact ⟨P.quiet (hquiet.send (fun _ => by simp)), hquiet.send (fun _ => by simp),
          P.inside label t hinv⟩
  | exitPhase =>
      rcases hstack : state.phaseStack with _ | ⟨top, rest⟩ <;>
        simp only [applyEvent, hstack, emitInterpError, wp_bind, Driver.wp_now,
          Driver.wp_updateSnapshot, Driver.wp_emit, wp_pure] <;> intro t
      · have hsent := P.sendPlain ⟨hquiet, hinv⟩ (.interpreterError "interpreter"
          "ExitPhase with empty phase stack" none) t rfl
        exact ⟨P.quiet hsent.1, hsent⟩
      · rw [hstack] at hinv
        have hleave := P.leave t hinv
        rw [List.head?_map] at hleave
        exact ⟨P.quiet hquiet, P.quiet (hquiet.send (fun _ => by simp)),
          hquiet.send (fun _ => by simp), hleave⟩
  | progress progress =>
      simp only [applyEvent, wp_bind, Driver.wp_now, Driver.wp_updateSnapshot,
        Driver.wp_emit, wp_pure]
      exact fun t => ⟨P.quiet hquiet, P.quiet (hquiet.send (fun _ => by simp)),
        hquiet.send (fun _ => by simp), P.told t hinv (.progress _)⟩
  | label text =>
      simp only [applyEvent, wp_bind, Driver.wp_now, Driver.wp_updateSnapshot,
        Driver.wp_emit, wp_pure]
      exact fun t => ⟨P.quiet hquiet, P.quiet (hquiet.send (fun _ => by simp)),
        hquiet.send (fun _ => by simp), P.told t hinv (.label _)⟩
  | warning _ _ | knownError _ _ | finding _ | prompt _ =>
      simp only [applyEvent, wp_bind, Driver.wp_now, Driver.wp_emit, wp_pure]
      intro t
      exact ⟨P.quiet (hquiet.send (fun _ => by simp)), hquiet.send (fun _ => by simp),
        P.plain t hinv rfl⟩
  | summary text =>
      simp only [applyEvent, wp_bind, Driver.wp_now, wp_pure]
      exact fun _ => ⟨hquiet, hinv⟩

private theorem panic_between (state : DriverState) (d : Ledger) (panic : String)
    (line : Option String) (time : SystemTime) (h : P.Between state d) :
    Driver.wp cfg P.Guarantee (emit cfg (.interpreterError "interpreter" panic line) time)
      (fun _ d' => P.Between { state with interpDisabled := true } d') d := by
  have hsent := P.sendPlain h (.interpreterError "interpreter" panic line) time rfl
  exact Driver.wp_emit.mpr ⟨P.quiet hsent.1, hsent⟩

private theorem popOpenPhases_closing (stack : List Phase) (d : Ledger) (hquiet : d.Quiet)
    (hclosing : P.closing (stack.map Phase.id) d) :
    Driver.wp cfg P.Guarantee (popOpenPhases cfg stack)
      (fun _ d' => d'.Quiet ∧ P.closing [] d') d := by
  induction stack generalizing d with
  | nil => exact ⟨hquiet, hclosing⟩
  | cons top rest ih =>
      simp only [popOpenPhases, wp_bind, Driver.wp_now, Driver.wp_emit]
      exact fun t => ⟨P.quiet (hquiet.send fun _ => nofun),
        ih _ (hquiet.send fun _ => nofun) (P.pop t hclosing)⟩

theorem exitOpenPhases_closed (state : DriverState) (d : Ledger) (h : P.Between state d) :
    Driver.wp cfg P.Guarantee (exitOpenPhases cfg state)
      (fun _ d' => d'.Quiet ∧ P.inv [] d') d := by
  rw [exitOpenPhases]
  refine wp_seq _ _ d (P.popOpenPhases_closing state.phaseStack d h.1 (P.close h.2)) ?_
  rintro _ d' ⟨hquiet, hclosing⟩
  simp only [wp_bind, Driver.wp_updateSnapshot, wp_pure]
  exact ⟨P.quiet hquiet, hquiet, P.closed hclosing⟩

private theorem finalizeJob_atEnd {d : Ledger} (hquiet : d.Quiet) (h : P.inv [] d)
    (outcome : Outcome) :
    Driver.wp cfg P.Guarantee (finalizeJob cfg outcome) (fun _ => P.AtEnd) d := by
  refine Driver.wp_finalizeJob ?_
  intro ok time finalized stored sent
  have hsent : P.AtEnd sent :=
    Or.inr (P.frame (P.told time h (.finalized outcome)) rfl rfl rfl)
  have hanswered : P.AtEnd (sent.answer outcome) :=
    Or.inr (P.frame (P.told time h (.finalized outcome)) rfl rfl rfl)
  exact ⟨P.quiet hquiet, P.quiet hquiet, P.quiet hquiet, Or.inr hsent, Or.inr hanswered,
    hanswered⟩

/-- The invariant along the driver. -/
def spec : Spec cfg Tracked where
  guarantee := P.Guarantee
  top v d := P.Between v.state d
  done := P.AtEnd
  launch := by
    refine Driver.wp_spawnJob ?_
    intro opens _ created opened
    have hquiet : created.Quiet := (Ledger.quiet_init cfg).send (fun _ => nofun)
    have hcreated : P.inv [] created := P.plain cfg.createdAt P.init rfl
    refine ⟨P.quiet hquiet, P.quiet hquiet, P.quiet hquiet, ?_, ?_⟩
    · exact fun error => P.finalizeJob_atEnd (d := opened.failSpawn) hquiet
        (P.frame hcreated rfl rfl rfl) _
    · intro start pid
      refine ⟨P.quiet hquiet, Driver.wp_startJob ?_⟩
      intro ok sentAt startedAt sent running stored attended
      have hsent : sent.Quiet :=
        Ledger.Quiet.send (d := opened.spawned pid) hquiet (fun _ => nofun)
      have hrunning : P.inv [] attended :=
        P.frame (P.told sentAt hcreated (.running startedAt pid)) rfl rfl rfl
      exact ⟨P.quiet hsent, P.quiet hsent, P.quiet hsent, P.quiet hsent, hsent, hrunning⟩
  turn := by
    rintro v d r - htop - hoffer
    have hselect : P.Between v.state (d.select r) := ⟨htop.1, P.frame htop.2 rfl rfl rfl⟩
    refine ⟨Or.inl hselect.1, ?_⟩
    cases r with
    | line stream result =>
        rcases result with _ | _ | text
        · cases stream <;> exact hselect
        · cases stream <;> exact hselect
        · refine Driver.wp_lineTurn (Driver.wp_processLine ?_)
          intro time written kept sent
          have hkept : P.Between v.state kept := ⟨htop.1, P.frame htop.2 rfl rfl rfl⟩
          have hsent : P.Between v.state sent := P.sendPlain hkept _ time rfl
          exact ⟨P.quiet htop.1, P.quiet htop.1, P.quiet hsent.1,
            wp_interpretLine P.applyEvent_between P.panic_between _ _ _ _ hsent⟩
    | exit result =>
        obtain ⟨-, hsome⟩ := hoffer
        obtain ⟨outcome, rfl⟩ := Option.isSome_iff_exists.mp hsome
        refine Driver.wp_receiveExit ?_
        intro ok time sent exited next
        have hsent : sent.Quiet :=
          Ledger.Quiet.send (d := d.select _) htop.1 (fun _ => nofun)
        have hexited : P.inv (v.state.phaseStack.map Phase.id) (exited.upsert ok) :=
          P.frame (P.told time htop.2 (.exited (exitCodeOf outcome.status))) rfl rfl rfl
        exact ⟨P.quiet hsent, P.quiet hsent, P.quiet hsent, hsent, hexited⟩
  finish := by
    rintro v d - htop -
    rw [finishJob]
    have hexit := wp_runOnExit P.applyEvent_between P.panic_between v.start
      (finalExitCode v.exitStatus) v.state d htop
    refine wp_seq _ _ d hexit ?_
    intro state d₁ hd₁
    refine wp_seq _ _ d₁ (P.exitOpenPhases_closed state d₁ hd₁) ?_
    rintro state d₂ ⟨hquiet, hinv⟩
    simp only [wp_bind, Driver.wp_isCancelled]
    exact fun cancelled => ⟨P.quiet hquiet,
      P.finalizeJob_atEnd (d := d₂.judge cancelled) hquiet (P.frame hinv rfl rfl rfl) _⟩

/-- The invariant holds at the head of the loop, for the phases open there. -/
theorem at_top {s : Sys} (hs : Sys.Reachable cfg s) {v : LoopVars} (hctl : s.ctl = .top v) :
    P.inv (v.state.phaseStack.map Phase.id) (s.ledger cfg) := by
  have hat := P.spec.holds (tracked_of_top cfg) hs
  rw [hctl] at hat
  exact hat.2

/-- The invariant holds once `Finalized` is sent, and no phase is open. -/
theorem at_end {s : Sys} (hs : Sys.Reachable cfg s) {e : Event} {outcome : Outcome}
    (he : e ∈ s.log) (hbody : e.body = .finalized outcome) : P.inv [] (s.ledger cfg) := by
  have hend : P.AtEnd (s.ledger cfg) :=
    P.spec.always (tracked_of_top cfg) (Or.inl (Ledger.quiet_init cfg))
      (fun _ _ _ h => h) hs
  refine hend.resolve_left (fun hquiet => hquiet e ?_ outcome hbody)
  change e ∈ s.sent
  rw [hs.merged.own]
  exact List.mem_filter.mpr ⟨he, by simp [hbody, EventBody.isCancelled]⟩

end PhaseInvariant

end Execra
