import Execra.Job.Recording
import Execra.Job.Verdict
import Execra.Job.Wire

/-!
Two runs of one job under two interpreters. Whatever an interpreter answers
goes to the driver's metadata; the records of the select loop and the
constructor of the outcome are functions of what the loop has returned and of
the token. So two runs that agree on these end alike.
-/

namespace Execra

/-- Two runs in which the world outside the interpreter did the same: the
runtime is configured alike and the log file could be opened in both or in
neither, the loop met the same lines, ends of the streams and exit in the same
order, and a `cancel` came in time for the driver's check in both or in
neither. -/
structure SameEnvironment (cfg cfg' : Config) (s s' : Sys) : Prop where
  runtime : cfg.runtime = cfg'.runtime
  opened : s.rawLog.isSome = s'.rawLog.isSome
  selected : s.selected = s'.selected
  cancelled : s.verdict = s'.verdict

/-- The interpreter has no say in what is recorded of the output, nor in the
constructor of the outcome. -/
theorem interpreter_cannot_change_verdict {cfg cfg' : Config} {s s' : Sys}
    (hs : Sys.Reachable cfg s) (hs' : Sys.Reachable cfg' s')
    (hret : s.ctl = .returned) (hret' : s'.ctl = .returned)
    (hchild : s.child.isSome) (hchild' : s'.child.isSome)
    (henv : SameEnvironment cfg cfg' s s') :
    outputsOf s.log = outputsOf s'.log ∧
    exitsOf s.log = exitsOf s'.log ∧
    s.rawLog = s'.rawLog ∧
    s.memoryRaw cfg.id = s'.memoryRaw cfg'.id ∧
    ∃ outcome outcome', s.job.outcome = some outcome ∧ s'.job.outcome = some outcome' ∧
      outcome.Alike outcome' ∧
      ∀ reason summary findings reason' summary' findings',
        outcome = .failed reason summary findings →
        outcome' = .failed reason' summary' findings' → reason ≠ reason' →
        s.verdict = some false ∧ (exitIn s.selected).map WaitOutcome.timedOut = some false ∧
          (reason.isKnownError = true ∨ reason'.isKnownError = true) := by
  have hrec := hs.recorded (Or.inr hret)
  have hrec' := hs'.recorded (Or.inr hret')
  rw [← henv.selected] at hrec'
  obtain ⟨cancelled, state, hverdict, houtcome⟩ := hs.verdict_of_returned hret hchild
  obtain ⟨cancelled', state', hverdict', houtcome'⟩ := hs'.verdict_of_returned hret' hchild'
  have hsame : cancelled' = cancelled := by
    have hboth := henv.cancelled
    rw [hverdict, hverdict'] at hboth
    exact (Option.some.inj hboth).symm
  subst hsame
  rw [← henv.selected] at houtcome'
  refine ⟨?_, ?_, ?_, ?_, _, _, houtcome, houtcome', computeOutcome_alike _ _ _ _ _, ?_⟩
  · calc outputsOf s.log
        = outputsOf s.sent := by rw [hs.merged.own, outputsOf_own]
      _ = outputsOf s'.sent := hrec.outputs.trans hrec'.outputs.symm
      _ = outputsOf s'.log := by rw [hs'.merged.own, outputsOf_own]
  · calc exitsOf s.log
        = exitsOf s.sent := by rw [hs.merged.own, exitsOf_own]
      _ = exitsOf s'.sent := hrec.exits.trans hrec'.exits.symm
      _ = exitsOf s'.log := by rw [hs'.merged.own, exitsOf_own]
  · have hopened := henv.opened
    have hraw : s.rawLog = none ∨ s.rawLog = some (rawText (linesIn s.selected)) := hrec.raw
    have hraw' : s'.rawLog = none ∨ s'.rawLog = some (rawText (linesIn s.selected)) := hrec'.raw
    rcases hraw with hraw | hraw <;> rcases hraw' with hraw' | hraw' <;>
      simp_all
  · have hring := hrec.ring
    rw [henv.runtime, ← hrec'.ring] at hring
    exact hring
  · intro reason summary findings reason' summary' findings' hfailed hfailed' hne
    obtain ⟨hfalse, htimed, hknown⟩ := computeOutcome_reasons hfailed hfailed' hne
    have hover : LoopOver s.selected := hs.judged.2.1 (by simp [Sys.ledger, hverdict])
    obtain ⟨received, hexit⟩ := Option.isSome_iff_exists.mp hover.2
    refine ⟨hfalse ▸ hverdict, ?_, hknown⟩
    rw [hexit] at htimed ⊢
    simpa using htimed

/-- The child prints one line and fails; every call of the interpreter, if
there is one, is answered by `interp`. -/
def failingRun (interp : InterpreterReply) (lineSteps endSteps : Nat) : List Label :=
  drive 12 ++ [.arrive .stdout [0x68, 0x69, newline]] ++
    List.replicate lineSteps (.driver { interp }) ++
    [.close .stdout .eof, .close .stderr .eof, .exitLeader .own (.exited 1),
      .wait .go {}, .wait .child {}, .wait .go {}] ++
    List.replicate endSteps (.driver { interp })

def plainFailure : List Label := failingRun (.ok []) 4 18

def knownConfig : Config := { plainConfig with interpreter := true }

def knownFailure : List Label := failingRun (.ok [.knownError "E42" "disk full"]) 9 23

theorem plainFailure_runs :
    (Transition.run (Sys.step plainConfig) (Sys.init plainConfig) plainFailure).isSome = true := by
  decide

theorem knownFailure_runs :
    (Transition.run (Sys.step knownConfig) (Sys.init knownConfig) knownFailure).isSome = true := by
  decide

def plainFailureEnd : Sys := Transition.endOf _ _ plainFailure plainFailure_runs

def knownFailureEnd : Sys := Transition.endOf _ _ knownFailure knownFailure_runs

theorem interpreter_cannot_change_verdict_failing :
    plainFailureEnd.job.outcome = some (.failed (.nonZeroExit 1) none []) ∧
    knownFailureEnd.job.outcome = some (.failed (.knownError "E42" "disk full") none []) ∧
    outputsOf plainFailureEnd.log = outputsOf knownFailureEnd.log ∧
    plainFailureEnd.verdict = some false := by
  have houtcome : plainFailureEnd.job.outcome =
      some (.failed (.nonZeroExit 1) none []) := by decide
  have houtcome' : knownFailureEnd.job.outcome =
      some (.failed (.knownError "E42" "disk full") none []) := by decide
  have henv : SameEnvironment plainConfig knownConfig plainFailureEnd knownFailureEnd :=
    ⟨by decide, by decide, by decide, by decide⟩
  obtain ⟨hout, -, -, -, o, o', ho, ho', -, hreasons⟩ :=
    interpreter_cannot_change_verdict
      (Transition.reachable_endOf _ plainFailure plainFailure_runs)
      (Transition.reachable_endOf _ knownFailure knownFailure_runs)
      rfl rfl (by decide) (by decide) henv
  have hfailed := Option.some.inj (ho.symm.trans houtcome)
  have hfailed' := Option.some.inj (ho'.symm.trans houtcome')
  exact ⟨houtcome, houtcome', hout, (hreasons _ _ _ _ _ _ hfailed hfailed' (by decide)).1⟩

end Execra
