import Execra.Foundation.Brackets
import Execra.Job.Phases

/-!
Phase events are well nested whatever the interpreter does. The stack machine
that reads the phase events of a job has, between two interpreter events, the
phase stack of the driver as its stack; closing the open phases empties both.
-/

namespace Execra

open Program Brackets

/-- The phase events of a log, as a word of brackets. -/
def phaseWord (log : List Event) : List (Bracket PhaseId) :=
  log.filterMap (fun e =>
    match e.body with
    | .phaseEntered phase _ _ => some (.enter phase)
    | .phaseUpdated phase _ => some (.inside phase)
    | .phaseExited phase => some (.leave phase)
    | _ => none)

theorem phaseWord_append (log : List Event) (e : Event) :
    phaseWord (log ++ [e]) = phaseWord log ++ phaseWord [e] := List.filterMap_append ..

theorem phaseWord_own (log : List Event) :
    phaseWord (log.filter (fun e => !e.body.isCancelled)) = phaseWord log := by
  rw [phaseWord, List.filterMap_filter, phaseWord]
  congr 1
  funext e
  cases hbody : e.body <;> simp [EventBody.isCancelled]

/-- The open phases are the stack of the machine, and the phases entered so
far are those whose ids were made. -/
def Ledger.Nests (cfg : Config) (stack : List PhaseId) (d : Ledger) : Prop :=
  Transition.run scan [] (phaseWord d.sent) = some stack ∧
    entered (phaseWord d.sent) = (List.range d.phasesMade).map cfg.phaseIds

theorem Ledger.Nests.quiet {cfg : Config} {d d' : Ledger} {stack : List PhaseId}
    (h : d.Nests cfg stack) {e : Event} (hsent : d'.sent = d.sent ++ [e])
    (hmade : d'.phasesMade = d.phasesMade) (hword : phaseWord [e] = []) :
    d'.Nests cfg stack := by
  unfold Nests
  rw [hsent, hmade, phaseWord_append, hword, List.append_nil]
  exact h

theorem Ledger.Nests.step {cfg : Config} {d d' : Ledger} {stack stack' : List PhaseId}
    (h : d.Nests cfg stack) {e : Event} {b : Bracket PhaseId}
    (hsent : d'.sent = d.sent ++ [e]) (hword : phaseWord [e] = [b])
    (hscan : scan stack b = some stack')
    (hmade : (List.range d.phasesMade).map cfg.phaseIds ++ entered [b] =
      (List.range d'.phasesMade).map cfg.phaseIds) : d'.Nests cfg stack' := by
  unfold Nests
  rw [hsent, phaseWord_append, hword, entered_append, h.2]
  exact ⟨(Transition.run_snoc_iff _ _ _ _).mpr ⟨stack, h.1, hscan⟩, hmade⟩

/-- Well-nestedness is an invariant about phases. -/
def nestingInvariant (cfg : Config) : PhaseInvariant cfg where
  inv := Ledger.Nests cfg
  closing := Ledger.Nests cfg
  init := ⟨rfl, rfl⟩
  frame h _ hsent hmade := by
    unfold Ledger.Nests
    rw [hsent, hmade]
    exact h
  plain {_ _ body} time h hplain := by
    refine h.quiet rfl rfl ?_
    cases body <;> first | rfl | cases hplain
  told time h htold := by
    refine h.quiet rfl rfl ?_
    cases htold <;> rfl
  enter name label time h := by
    refine h.step rfl rfl rfl ?_
    simp [List.range_succ, entered]
  inside label time h := h.step rfl rfl (by simp [scan]) (by simp [entered])
  leave time h := h.step rfl rfl (by simp [scan]) (by simp [entered])
  close h := h
  pop time h := h.step rfl rfl (by simp [scan]) (by simp [entered])
  closed h := h

/-- By the time `Finalized` is sent the phase events of a job are well nested
and every phase entered is exited exactly once; and `ExitPhase` or
`UpdatePhase` on an empty stack sends one `InterpreterError` and changes
neither the stack nor the snapshot. -/
theorem phases_well_nested {cfg : Config} (hfresh : Function.Injective cfg.phaseIds) :
    (∀ s e outcome, Sys.Reachable cfg s → e ∈ s.log → e.body = .finalized outcome →
      Nested none (phaseWord s.log) ∧
      ∀ phase ∈ entered (phaseWord s.log), (left (phaseWord s.log)).count phase = 1) ∧
    (∀ (ev : InterpreterEvent) (state : DriverState) (s : Sys),
      (ev = .exitPhase ∨ ∃ label, ev = .updatePhase label) → state.phaseStack = [] →
      Program.wp (fun w o s => s.act cfg w o) (fun s t => t.snapshot = s.snapshot)
        (applyEvent cfg ev state)
        (fun state' t => state' = state ∧ ∃ error time,
          t.log = s.log ++
            [{ job := cfg.id, body := .interpreterError "interpreter" error none, time }])
        s) := by
  refine ⟨?_, ?_⟩
  · intro s e outcome hs he hbody
    obtain ⟨hrun, hmade⟩ := (nestingInvariant cfg).at_end hs he hbody
    have hword : phaseWord (s.ledger cfg).sent = phaseWord s.log := by
      change phaseWord s.sent = _
      rw [hs.merged.own, phaseWord_own]
    rw [hword] at hrun hmade
    have hnested := nested_of_run hrun
    refine ⟨hnested, fun phase hphase => hnested.left_once ?_ hphase⟩
    rw [hmade]
    exact List.nodup_range.map hfresh
  · rintro ev state s (rfl | ⟨label, rfl⟩) hstack
    all_goals
      simp only [applyEvent, hstack, emitInterpError, emit]
      intro w₁
      refine ⟨Or.inl rfl, fun w₂ => ⟨Or.inr rfl, fun w₃ => ⟨?_, rfl, _, _, rfl⟩⟩⟩
      exact Or.inr rfl

def phasedConfig : Config := { plainConfig with interpreter := true }

/-- The interpreter answers a line with two phases, of which it leaves one, and
an update of the other. -/
def phasedRun : List Label :=
  drive 12 ++ [.arrive .stdout [0x78, newline]] ++ drive 5 ++
    [.driver { interp := .ok [.enterPhase "a" none, .enterPhase "b" none, .exitPhase,
      .updatePhase "c"] }] ++ drive 17 ++ leaveQuietly ++ drive 23

theorem phasedRun_runs :
    (Transition.run (Sys.step phasedConfig) (Sys.init phasedConfig) phasedRun).isSome = true := by
  decide

def phasedEnd : Sys := Transition.endOf _ _ phasedRun phasedRun_runs

theorem phasedEnd_word : phaseWord phasedEnd.log =
    [.enter ⟨0⟩, .enter ⟨1⟩, .leave ⟨1⟩, .inside ⟨0⟩, .leave ⟨0⟩] := by decide

theorem phasedEnd_finalized :
    .finalized (.succeeded none []) ∈ phasedEnd.log.map Event.body := by decide

theorem phases_well_nested_phased :
    Nested none (phaseWord phasedEnd.log) ∧
      (left (phaseWord phasedEnd.log)).count (⟨1⟩ : PhaseId) = 1 := by
  have hfresh : Function.Injective phasedConfig.phaseIds := fun _ _ h => PhaseId.mk.inj h
  obtain ⟨e, he, hbody⟩ := List.mem_map.mp phasedEnd_finalized
  have h := (phases_well_nested hfresh).1 phasedEnd e _
    (Transition.reachable_endOf _ _ phasedRun_runs) he hbody
  exact ⟨h.1, h.2 ⟨1⟩ (by rw [phasedEnd_word]; decide)⟩

end Execra
