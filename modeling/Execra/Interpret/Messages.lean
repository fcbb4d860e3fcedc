import Execra.Interpret.Fallback
import Execra.Interpret.Notes
import Execra.Job.Protocol

/-!
The messages of a run of the rule interpreter: its warnings, known errors and
summaries. Each is said on a visible line by the first rule that matches the line,
with the captures put into its template, and nothing but the known error of the
fallback is added at the exit. What is said on one line does not depend on the others.
-/

namespace Execra

def InterpreterEvent.isMessage : InterpreterEvent → Bool
  | .warning .. | .knownError .. | .summary _ => true
  | _ => false

def InterpreterEvent.error? : InterpreterEvent → Option (String × String)
  | .knownError code message => some (code, message)
  | _ => none

/-- The message of an action, if it has one. -/
def RuleAction.message (caps : Captures) : RuleAction → Option InterpreterEvent
  | .warning code template => some (.warning (some code) (render template caps))
  | .knownError code template => some (.knownError code (render template caps))
  | .summary template => some (.summary (render template caps))
  | _ => none

namespace RuleInterpreter

/-- What a table says on a line. -/
def saidOn (rules : List Rule) (line : Line) : Option InterpreterEvent :=
  (firstMatch line.text rules).bind (fun found => found.1.message found.2)

variable {interp : RuleInterpreter}

theorem exitCurrent_messages : interp.exitCurrent.filter InterpreterEvent.isMessage = [] := by
  unfold exitCurrent
  rcases interp.currentPhase with _ | prev
  · rfl
  · rcases hrange : interp.phases prev with _ | ⟨start, stop⟩ <;> simp only [hrange] <;> rfl

theorem apply_messages (caps : Captures) (action : RuleAction) :
    (interp.apply caps action).1.filter InterpreterEvent.isMessage =
      (action.message caps).toList := by
  cases action with
  | enterPhase name labelTemplate =>
      simp only [apply, List.filter_append, exitCurrent_messages]
      rcases interp.phases name with _ | ⟨start, stop⟩ <;> rfl
  | byteProgressMb =>
      rw [apply_byteProgressMb, byteEvents]
      repeat' split
      all_goals rfl
  | _ => rfl

theorem classify_messages (line : Line) :
    (interp.classify line).1.filter InterpreterEvent.isMessage =
      ([line].filter (fun line => line.text ≠ "")).filterMap (saidOn interp.rules) := by
  have hclassifies : interp.Classifies line (interp.classify line) := classify_classifies line
  generalize interp.classify line = answered at hclassifies ⊢
  cases hclassifies with
  | empty hempty =>
      rw [List.filter_cons_of_neg (by simp [hempty])]
      rfl
  | matched action caps hvisible hmatch =>
      rw [List.filter_cons_of_pos (by simpa using hvisible), List.filter_nil, apply_messages,
        List.filterMap_cons, saidOn, hmatch]
      cases hmessage : action.message caps <;> simp [hmessage]
  | unmatched hvisible hmatch =>
      rw [List.filter_cons_of_pos (by simpa using hvisible), List.filter_nil,
        List.filterMap_cons, saidOn, hmatch]
      rfl

theorem classifyAll_messages (calls : List LineCall) :
    (interp.classifyAll calls).1.filter InterpreterEvent.isMessage =
      ((calls.map LineCall.line).filter (fun line => line.text ≠ "")).filterMap
        (saidOn interp.rules) := by
  induction calls generalizing interp with
  | nil => rfl
  | cons call calls ih =>
      have hrules := (@classify_tracks interp call.line).rules
      rw [classifyAll, List.filter_append, ih, hrules, classify_messages, ← List.filterMap_append,
        ← List.filter_append]
      rfl

theorem filter_messages (evs : List InterpreterEvent) :
    (evs.filter (fun ev => !ev.isFinding)).filter InterpreterEvent.isMessage =
      evs.filter InterpreterEvent.isMessage := by
  rw [List.filter_filter]
  congr 1
  funext ev
  cases ev <;> rfl

theorem flushNotes_messages (now : SystemTime) :
    (interp.flushNotes now).1.filter InterpreterEvent.isMessage = [] := by
  unfold flushNotes
  split <;> rfl

section Run

variable (rules : List Rule) (phases : String → Option (F32 × F32)) (notes : Option NotesConfig)
  (fallback : Option FallbackPolicy) (calls : List LineCall) (exit : ExitCode) (now : SystemTime)

/-- The messages of a whole run. -/
theorem runEvents_messages :
    ((configured rules phases notes fallback).runEvents calls exit now).filter
        InterpreterEvent.isMessage =
      (visible notes calls).filterMap (saidOn rules) ++
        (expectedError rules notes fallback calls exit).toList.map
          (fun error => .knownError error.1 error.2) := by
  have hrun := (configured_paired rules phases notes fallback).onLines calls
  have hevents := congrArg (List.filter InterpreterEvent.isMessage) (Prod.ext_iff.mp hrun).1
  rw [filter_messages, classifyAll_messages] at hevents
  have herror : ((expectedError rules notes fallback calls exit).toList.map
      (fun error => InterpreterEvent.knownError error.1 error.2)).filter
        InterpreterEvent.isMessage =
      (expectedError rules notes fallback calls exit).toList.map
        (fun error => .knownError error.1 error.2) := by
    cases expectedError rules notes fallback calls exit <;> rfl
  rw [runEvents, List.filter_append, hevents, onExit_events, List.filter_append,
    List.filter_append, flushNotes_messages, exitCurrent_messages, synthesized_onLines, herror]
  rfl

end Run

/-- The findings of a run, without the readings of the clock. -/
def notesFindings (notes : Option NotesConfig) (calls : List LineCall) : List Finding :=
  notes.toList.flatMap (fun notes =>
    (notesBodies (some notes) calls).filterMap (fun body => notes.findingOf (keptOf body)))

/-- Without notes there are no findings. -/
theorem Paired.no_findings (h : interp.Paired none) (hconfig : interp.notes = none)
    (calls : List LineCall) (exit : ExitCode) (now : SystemTime) :
    findingsIn (interp.runEvents calls exit now) = [] := by
  induction calls generalizing interp with
  | nil =>
      have hempty : interp.notesBuf = [] := h.buffer
      have hflushed : (interp.flushNotes now).1 = [] := by
        rw [flushNotes, if_pos hempty]
      have hfallback : findingsIn ((interp.synthesized exit).toList.map
          (fun error => .knownError error.1 error.2)) = [] := by
        cases interp.synthesized exit <;> rfl
      change findingsIn (interp.onExit exit now).1 = []
      rw [onExit_events, hflushed, findingsIn_append, findingsIn_append,
        findingsIn_eq_nil exitCurrent_kinds.1, hfallback]
      rfl
  | cons call calls ih =>
      obtain ⟨next, hreads, hnext⟩ := h.onLine call
      have hnotes := hreads.notes.trans hconfig
      have hsplit : findingsIn (interp.runEvents (call :: calls) exit now) =
          findingsIn (interp.onLine call.line call.now).1 ++
            findingsIn ((interp.onLine call.line call.now).2.runEvents calls exit now) := by
        rw [← findingsIn_append]
        simp [runEvents, RuleInterpreter.onLines]
      rw [hsplit]
      generalize interp.onLine call.line call.now = answered at hreads hnext hnotes ⊢
      cases hreads with
      | classified hopens =>
          rw [findingsIn_eq_nil (classify_findings call.line), ih hnext hnotes]
          rfl
      | opened hopens =>
          rw [opensNotes, hconfig] at hopens
          cases hopens

theorem findingsIn_runEvents (rules : List Rule) (phases : String → Option (F32 × F32))
    (notes : Option NotesConfig) (fallback : Option FallbackPolicy) (calls : List LineCall)
    (exit : ExitCode) (now : SystemTime) :
    findingsIn ((configured rules phases notes fallback).runEvents calls exit now) =
      notesFindings notes calls := by
  have hpaired := configured_paired rules phases notes fallback
  cases notes with
  | none => exact hpaired.no_findings rfl calls exit now
  | some notes =>
      rw [hpaired.findings rfl calls exit now, notesFindings, Option.toList_some,
        List.flatMap_singleton]
      rfl

/-! The known errors. -/

/-- The error a rule recognises on a line. -/
def errorOn (rules : List Rule) (line : Line) : Option (String × String) :=
  (saidOn rules line).bind InterpreterEvent.error?

theorem errorOn_isSome (rules : List Rule) (line : Line) :
    (errorOn rules line).isSome = firesKnownError rules line := by
  unfold errorOn saidOn firesKnownError
  rcases firstMatch line.text rules with _ | ⟨action, caps⟩
  · rfl
  · cases action <;> rfl

theorem errorOn_nil_iff (rules : List Rule) (lines : List Line) :
    lines.filterMap (errorOn rules) = [] ↔ lines.any (firesKnownError rules) = false := by
  rw [List.filterMap_eq_nil_iff, List.any_eq_false]
  refine forall₂_congr (fun line _ => ?_)
  rw [← errorOn_isSome, Option.not_isSome_iff_eq_none]

/-- The error that a failing run ends with: the last one that a rule has recognised, or
else the one of the fallback. -/
def lastError (rules : List Rule) (notes : Option NotesConfig) (fallback : Option FallbackPolicy)
    (calls : List LineCall) : Option (String × String) :=
  ((visible notes calls).filterMap (errorOn rules)).getLast?.or
    (fallback.bind (fun fb =>
      (fb.messageAfter rules (visible notes calls)).map (fun message => (fb.code, message))))

/-! What can be read off the messages. -/

theorem errors_of_messages (evs : List InterpreterEvent) :
    (evs.filter InterpreterEvent.isMessage).filterMap InterpreterEvent.error? =
      evs.filterMap InterpreterEvent.error? := by
  rw [List.filterMap_filter]
  congr 1
  funext ev
  cases ev <;> rfl

theorem lastSummary_of_messages (evs : List InterpreterEvent) :
    lastSummary (evs.filter InterpreterEvent.isMessage) = lastSummary evs := by
  unfold lastSummary
  rw [List.filterMap_filter]
  congr 2
  funext ev
  cases ev <;> rfl

theorem errors_runEvents (rules : List Rule) (phases : String → Option (F32 × F32))
    (notes : Option NotesConfig) (fallback : Option FallbackPolicy) (calls : List LineCall)
    {exit : ExitCode} (hexit : exit.isSuccess = false) (now : SystemTime) :
    (((configured rules phases notes fallback).runEvents calls exit now).filterMap
      InterpreterEvent.error?).getLast? = lastError rules notes fallback calls := by
  have hown : ((expectedError rules notes fallback calls exit).toList.map
      (fun error => InterpreterEvent.knownError error.1 error.2)).filterMap
        InterpreterEvent.error? = (expectedError rules notes fallback calls exit).toList := by
    cases expectedError rules notes fallback calls exit <;> rfl
  have herrors : (visible notes calls).filterMap (errorOn rules) =
      ((visible notes calls).filterMap (saidOn rules)).filterMap InterpreterEvent.error? :=
    List.filterMap_filterMap.symm
  rw [← errors_of_messages, runEvents_messages, List.filterMap_append, hown, ← herrors,
    List.getLast?_append, lastError, expectedError, hexit, Bool.false_or]
  rcases hquiet : (visible notes calls).any (firesKnownError rules) with _ | _
  · rw [(errorOn_nil_iff rules _).mpr hquiet]
    cases fallback with
    | none => rfl
    | some fb =>
        simp only [Option.bind_some, Bool.false_eq_true, if_false]
        cases fb.messageAfter rules (visible notes calls) <;> rfl
  · have hsome : ((visible notes calls).filterMap (errorOn rules)).getLast?.isSome := by
      rw [List.getLast?_isSome]
      intro hnil
      rw [(errorOn_nil_iff rules _).mp hnil] at hquiet
      cases hquiet
    obtain ⟨error, herror⟩ := Option.isSome_iff_exists.mp hsome
    rw [herror]
    cases fallback <;> rfl

/-- The last summary on a visible line. -/
def lastSaid (rules : List Rule) (notes : Option NotesConfig) (calls : List LineCall) :
    Option String :=
  lastSummary ((visible notes calls).filterMap (saidOn rules))

theorem lastSummary_runEvents (rules : List Rule) (phases : String → Option (F32 × F32))
    (notes : Option NotesConfig) (fallback : Option FallbackPolicy) (calls : List LineCall)
    (exit : ExitCode) (now : SystemTime) :
    lastSummary ((configured rules phases notes fallback).runEvents calls exit now) =
      lastSaid rules notes calls := by
  rw [← lastSummary_of_messages, runEvents_messages, lastSummary_append]
  cases expectedError rules notes fallback calls exit <;> rfl

end RuleInterpreter

end Execra
