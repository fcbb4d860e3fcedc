import Execra.Interpret.Run

/-!
The known error that `on_exit` makes up. Three fields decide on it: whether a rule
has returned a known error, the first unclassified line that mentions a failure, and
the last line on stderr. Each is read off the visible lines of the run here, those
that are not empty and no part of notes.
-/

namespace Execra

/-- A rule with a known error is the first to match the line. -/
def firesKnownError (rules : List Rule) (line : Line) : Bool :=
  (RuleInterpreter.firstMatch line.text rules).any (fun found => found.1.isKnownError)

/-- No rule matches the line, and it mentions a failure. -/
def failsUnclassified (rules : List Rule) (line : Line) : Bool :=
  (RuleInterpreter.firstMatch line.text rules).isNone && mentionsFailed line.text

/-- The first line that fails unclassified. -/
def firstFailed (rules : List Rule) (lines : List Line) : Option String :=
  (lines.find? (failsUnclassified rules)).map Line.text

/-- The last line on stderr, matched by a rule or not. -/
def lastOnStderr (lines : List Line) : Option String :=
  ((lines.filter (fun line => line.stream = .stderr)).getLast?).map Line.text

/-- The message of a fallback, after these visible lines. -/
def FallbackPolicy.messageAfter (fb : FallbackPolicy) (rules : List Rule) (lines : List Line) :
    Option String :=
  (if fb.fromFailedLine then firstFailed rules lines else none).or
    (if fb.fromStderr then lastOnStderr lines else none)

namespace RuleInterpreter

/-- The lines that are not empty, and neither start notes nor are part of them. -/
def visible (notes : Option NotesConfig) (calls : List LineCall) : List Line :=
  ((outsideNotes notes calls).map LineCall.line).filter (fun line => line.text ≠ "")

theorem lastOnStderr_append (first second : List Line) :
    lastOnStderr (first ++ second) = (lastOnStderr second).or (lastOnStderr first) := by
  simp only [lastOnStderr, List.filter_append, List.getLast?_append]
  cases (second.filter (fun line => line.stream = .stderr)).getLast? <;> rfl

theorem firstFailed_append (rules : List Rule) (first second : List Line) :
    firstFailed rules (first ++ second) =
      (firstFailed rules first).or (firstFailed rules second) := by
  simp only [firstFailed, List.find?_append]
  cases first.find? (failsUnclassified rules) <;> rfl

/-- What some visible lines have made of the fields that the fallback reads, and the
events that were returned for them. -/
structure Tracks (i j : RuleInterpreter) (lines : List Line) (evs : List InterpreterEvent) :
    Prop where
  rules : j.rules = i.rules
  fallback : j.fallback = i.fallback
  emitted : j.emittedKnownError = (i.emittedKnownError || lines.any (firesKnownError i.rules))
  stderr : j.lastStderr = (lastOnStderr lines).or i.lastStderr
  failed : j.emittedKnownError = false → j.fallbackError = i.fallbackError.or
    (if i.fallback.any FallbackPolicy.fromFailedLine then firstFailed i.rules lines else none)
  events : evs.any InterpreterEvent.isKnownError = lines.any (firesKnownError i.rules)

theorem Tracks.refl (i : RuleInterpreter) : i.Tracks i [] [] := by
  refine ⟨rfl, rfl, (Bool.or_false _).symm, rfl, fun _ => ?_, rfl⟩
  simp [firstFailed]

theorem Tracks.trans {i m j : RuleInterpreter} {first second : List Line}
    {evs more : List InterpreterEvent} (h : i.Tracks m first evs) (h' : m.Tracks j second more) :
    i.Tracks j (first ++ second) (evs ++ more) := by
  refine ⟨h'.rules.trans h.rules, h'.fallback.trans h.fallback, ?_, ?_, fun hquiet => ?_, ?_⟩
  · rw [h'.emitted, h.emitted, h.rules, List.any_append, Bool.or_assoc]
  · rw [h'.stderr, h.stderr, lastOnStderr_append, Option.or_assoc]
  · have hbefore : m.emittedKnownError = false := by
      have hemitted := h'.emitted
      rw [hquiet] at hemitted
      exact (Bool.or_eq_false_iff.mp hemitted.symm).1
    rw [h'.failed hquiet, h.failed hbefore, h.rules, h.fallback, firstFailed_append,
      Option.or_assoc]
    split <;> rfl
  · rw [List.any_append, List.any_append, h.events, h'.events, h.rules]

variable {interp : RuleInterpreter}

/-- An action says whether it is a known error, and with one forgets what was buffered. -/
theorem apply_errors (caps : Captures) (action : RuleAction) :
    let next := (interp.apply caps action).2
    next.rules = interp.rules ∧ next.fallback = interp.fallback ∧
      next.lastStderr = interp.lastStderr ∧
      next.emittedKnownError = (interp.emittedKnownError || action.isKnownError) ∧
      (next.emittedKnownError = false → next.fallbackError = interp.fallbackError) := by
  simp only [apply_state]
  cases action with
  | knownError => exact ⟨rfl, rfl, rfl, (Bool.or_true _).symm, fun h => absurd h Bool.noConfusion⟩
  | _ => exact ⟨rfl, rfl, rfl, (Bool.or_false _).symm, fun _ => rfl⟩

/-- One line that is classified. -/
theorem classify_tracks (line : Line) :
    interp.Tracks (interp.classify line).2 ([line].filter (fun line => line.text ≠ ""))
      (interp.classify line).1 := by
  have hclassifies : interp.Classifies line (interp.classify line) := classify_classifies line
  generalize interp.classify line = answered at hclassifies ⊢
  have hstderr : (interp.heard line).lastStderr = (lastOnStderr [line]).or interp.lastStderr := by
    unfold heard lastOnStderr
    by_cases hstream : line.stream = .stderr <;> simp [hstream]
  cases hclassifies with
  | empty hempty =>
      rw [List.filter_cons_of_neg (by simp [hempty])]
      exact Tracks.refl interp
  | matched action caps hvisible hmatch =>
      have hfires : firesKnownError interp.rules line = action.isKnownError := by
        simp [firesKnownError, hmatch]
      have hfailed : firstFailed interp.rules [line] = none := by
        simp [firstFailed, failsUnclassified, hmatch]
      rw [List.filter_cons_of_pos (by simpa using hvisible), List.filter_nil]
      have hkinds := (@apply_kinds (interp.heard line) caps action).2
      have hevents : ((interp.heard line).apply caps action).1.any InterpreterEvent.isKnownError =
          [line].any (firesKnownError interp.rules) := by
        rw [hkinds, List.any_cons, hfires]
        exact (Bool.or_false _).symm
      obtain ⟨hrules, hfallback, hheard, hemitted, hbuffered⟩ :=
        @apply_errors (interp.heard line) caps action
      refine ⟨hrules, hfallback, ?_, hheard.trans hstderr, fun hquiet => ?_, hevents⟩
      · rw [hemitted, List.any_cons, hfires, List.any_nil, Bool.or_false, heard_emittedKnownError]
      · rw [hbuffered hquiet, hfailed, ite_self, Option.or_none, heard_fallbackError]
  | unmatched hvisible hmatch =>
      have hfires : firesKnownError interp.rules line = false := by
        simp [firesKnownError, hmatch]
      rw [List.filter_cons_of_pos (by simpa using hvisible), List.filter_nil]
      refine ⟨rfl, rfl, ?_, hstderr, fun _ => ?_, ?_⟩
      · simp [hfires]
      · unfold buffers firstFailed
        cases interp.fallback.any FallbackPolicy.fromFailedLine <;>
          cases hmentions : mentionsFailed line.text <;>
          simp [failsUnclassified, hmatch, hmentions]
      · simp [hfires]

theorem classifyAll_tracks (calls : List LineCall) :
    interp.Tracks (interp.classifyAll calls).2
      ((calls.map LineCall.line).filter (fun line => line.text ≠ ""))
      (interp.classifyAll calls).1 := by
  induction calls generalizing interp with
  | nil => exact Tracks.refl interp
  | cons call calls ih =>
      have hboth := (classify_tracks call.line).trans (@ih (interp.classify call.line).2)
      rw [← List.filter_append] at hboth
      exact hboth

/-- No finding is a known error. -/
theorem any_isKnownError_filter (evs : List InterpreterEvent) :
    (evs.filter (fun ev => !ev.isFinding)).any InterpreterEvent.isKnownError =
      evs.any InterpreterEvent.isKnownError := by
  rw [List.any_filter]
  congr 1
  funext ev
  cases ev <;> rfl

section Run

variable (rules : List Rule) (phases : String → Option (F32 × F32)) (notes : Option NotesConfig)
  (fallback : Option FallbackPolicy) (calls : List LineCall) (exit : ExitCode) (now : SystemTime)

/-- The calls of a whole run. -/
theorem onLines_tracks :
    (configured rules phases notes fallback).Tracks
      ((configured rules phases notes fallback).onLines calls).2 (visible notes calls)
      ((configured rules phases notes fallback).onLines calls).1.flatten := by
  have hrun := (configured_paired rules phases notes fallback).onLines calls
  have htracks := @classifyAll_tracks (configured rules phases notes fallback)
    (outsideNotes notes calls)
  have hsame : (configured rules phases notes fallback).classifyAll (outsideNotes notes calls) =
      _ := hrun.symm
  rw [hsame] at htracks
  have hevents := htracks.events
  rw [any_isKnownError_filter] at hevents
  exact ⟨htracks.rules, htracks.fallback, htracks.emitted, htracks.stderr, htracks.failed, hevents⟩

/-- The known error of the exit, read off the visible lines. -/
def expectedError : Option (String × String) :=
  fallback.bind (fun fb =>
    if exit.isSuccess || (visible notes calls).any (firesKnownError rules) then none
    else (fb.messageAfter rules (visible notes calls)).map (fun message => (fb.code, message)))

theorem synthesized_onLines :
    ((configured rules phases notes fallback).onLines calls).2.synthesized exit =
      expectedError rules notes fallback calls exit := by
  have htracks := onLines_tracks rules phases notes fallback calls
  generalize ((configured rules phases notes fallback).onLines calls).2 = last at htracks ⊢
  have hemitted : last.emittedKnownError = (visible notes calls).any (firesKnownError rules) :=
    htracks.emitted
  have hstderr : last.lastStderr = lastOnStderr (visible notes calls) := by
    rw [htracks.stderr]
    exact Option.or_none
  unfold synthesized expectedError
  rw [htracks.fallback, hemitted, hstderr]
  change fallback.bind _ = _
  refine Option.bind_congr (fun fb hfb => ?_)
  split
  · rfl
  · next hquiet =>
      have hnone : last.emittedKnownError = false := by
        rw [hemitted]
        exact (Bool.or_eq_false_iff.mp (Bool.eq_false_of_not_eq_true hquiet)).2
      have hfailed := htracks.failed hnone
      change last.fallbackError = none.or
        (if fallback.any FallbackPolicy.fromFailedLine then _ else none) at hfailed
      rw [hfb, Option.any_some, Option.none_or] at hfailed
      unfold FallbackPolicy.messageAfter
      cases hflag : fb.fromFailedLine with
      | true => rw [hfailed, hflag]; rfl
      | false => rfl

theorem flushNotes_kinds {interp : RuleInterpreter} (now : SystemTime) :
    (interp.flushNotes now).1.any InterpreterEvent.isKnownError = false := by
  unfold flushNotes
  split <;> rfl

/-- What `on_exit` returns: no known error, and then the expected one if there is
one. -/
theorem onExit_splits : ∃ before, before.any InterpreterEvent.isKnownError = false ∧
    (((configured rules phases notes fallback).onLines calls).2.onExit exit now).1 =
      before ++ (expectedError rules notes fallback calls exit).toList.map
        (fun error => .knownError error.1 error.2) := by
  rw [onExit_events, synthesized_onLines]
  refine ⟨_, ?_, rfl⟩
  rw [List.any_append, flushNotes_kinds, exitCurrent_kinds.2]
  rfl

theorem expectedError_iff {error : String × String} :
    expectedError rules notes fallback calls exit = some error ↔
      ∃ fb, fallback = some fb ∧ exit.isSuccess = false ∧
        (∀ line ∈ visible notes calls, firesKnownError rules line = false) ∧
        fb.messageAfter rules (visible notes calls) = some error.2 ∧ error.1 = fb.code := by
  obtain ⟨code, message⟩ := error
  unfold expectedError
  rw [Option.bind_eq_some_iff]
  refine exists_congr (fun fb => and_congr_right (fun _ => ?_))
  split
  · next hloud =>
      refine iff_of_false (fun h => by cases h) ?_
      rintro ⟨hexit, hquiet, -⟩
      rw [hexit, Bool.false_or, List.any_eq_true] at hloud
      obtain ⟨line, hline, hfires⟩ := hloud
      rw [hquiet line hline] at hfires
      cases hfires
  · next hquiet =>
      obtain ⟨hexit, hnone⟩ := Bool.or_eq_false_iff.mp (Bool.eq_false_of_not_eq_true hquiet)
      rw [List.any_eq_false] at hnone
      constructor
      · intro h
        obtain ⟨found, hfound, heq⟩ := Option.map_eq_some_iff.mp h
        cases heq
        exact ⟨hexit, fun line hline => Bool.eq_false_of_not_eq_true (hnone line hline), hfound,
          rfl⟩
      · rintro ⟨-, -, hfound, rfl⟩
        rw [hfound]
        rfl

/-- The known error of the exit comes last, and there is no other. It is there if and
only if a fallback is configured, the exit is no success, no rule has returned a known
error, and there is a message; then it has the code of the fallback and the message. -/
theorem fallback_exact : ∃ before error, before.any InterpreterEvent.isKnownError = false ∧
    (((configured rules phases notes fallback).onLines calls).2.onExit exit now).1 =
      before ++ (error : Option (String × String)).toList.map
        (fun error => .knownError error.1 error.2) ∧
    ∀ code message, error = some (code, message) ↔
      ∃ fb, fallback = some fb ∧ exit.isSuccess = false ∧
        (∀ line ∈ visible notes calls, firesKnownError rules line = false) ∧
        fb.messageAfter rules (visible notes calls) = some message ∧ code = fb.code := by
  obtain ⟨before, hbefore, hevents⟩ := onExit_splits rules phases notes fallback calls exit now
  exact ⟨before, _, hbefore, hevents, fun code message =>
    expectedError_iff rules notes fallback calls exit⟩

/-- A visible line that gives a failure a message: a line on stderr, one that is
classified as a known error, or the first to be buffered. -/
def Reportable (rules : List Rule) (fb : FallbackPolicy) (line : Line) : Prop :=
  line.stream = .stderr ∨ firesKnownError rules line = true ∨
    (fb.fromFailedLine = true ∧ failsUnclassified rules line = true)

theorem messageAfter_isSome {fb : FallbackPolicy} (hstderr : fb.fromStderr = true)
    (lines : List Line) : (fb.messageAfter rules lines).isSome = true ↔
      ∃ line ∈ lines, line.stream = .stderr ∨
        (fb.fromFailedLine = true ∧ failsUnclassified rules line = true) := by
  have hlast : (lastOnStderr lines).isSome = true ↔ ∃ line ∈ lines, line.stream = .stderr := by
    rw [lastOnStderr, Option.isSome_map, List.getLast?_isSome, Ne, List.filter_eq_nil_iff]
    simp
  have hfirst : (firstFailed rules lines).isSome = true ↔
      ∃ line ∈ lines, failsUnclassified rules line = true := by
    rw [firstFailed, Option.isSome_map, List.find?_isSome]
  unfold FallbackPolicy.messageAfter
  rw [if_pos hstderr, Option.isSome_or, Bool.or_eq_true, hlast]
  cases hflag : fb.fromFailedLine with
  | true =>
      rw [if_pos rfl, hfirst]
      constructor
      · rintro (⟨line, hline, hfails⟩ | ⟨line, hline, hstream⟩)
        · exact ⟨line, hline, .inr ⟨rfl, hfails⟩⟩
        · exact ⟨line, hline, .inl hstream⟩
      · rintro ⟨line, hline, hstream | ⟨-, hfails⟩⟩
        · exact .inr ⟨line, hline, hstream⟩
        · exact .inl ⟨line, hline, hfails⟩
  | false => simp

/-- A run that fails returns a known error if and only if one of its visible lines is
reportable. -/
theorem failing_run_reports_iff {fb : FallbackPolicy} (hstderr : fb.fromStderr = true)
    (hexit : exit.isSuccess = false) :
    ((configured rules phases notes (some fb)).runEvents calls exit now).any
        InterpreterEvent.isKnownError = true ↔
      ∃ line ∈ visible notes calls, Reportable rules fb line := by
  have htracks := onLines_tracks rules phases notes (some fb) calls
  obtain ⟨before, hbefore, hevents⟩ := onExit_splits rules phases notes (some fb) calls exit now
  have hmade : ((expectedError rules notes (some fb) calls exit).toList.map
      (fun error => InterpreterEvent.knownError error.1 error.2)).any
        InterpreterEvent.isKnownError =
      (expectedError rules notes (some fb) calls exit).isSome := by
    cases expectedError rules notes (some fb) calls exit <;> rfl
  rw [runEvents, List.any_append, htracks.events, hevents, List.any_append, hbefore, Bool.false_or,
    hmade]
  change ((visible notes calls).any (firesKnownError rules) || _) = true ↔ _
  cases hloud : (visible notes calls).any (firesKnownError rules) with
  | true =>
      obtain ⟨line, hline, hfires⟩ := List.any_eq_true.mp hloud
      exact iff_of_true rfl ⟨line, hline, .inr (.inl hfires)⟩
  | false =>
      have hexpected : expectedError rules notes (some fb) calls exit =
          (fb.messageAfter rules (visible notes calls)).map
            (fun message => (fb.code, message)) := by
        simp [expectedError, hexit, hloud]
      rw [Bool.false_or, hexpected, Option.isSome_map, messageAfter_isSome rules hstderr]
      refine exists_congr (fun line => and_congr_right (fun hline => or_congr_right ?_))
      have hquiet := List.any_eq_false.mp hloud line hline
      simp [hquiet]

end Run

/-- A failure that is reported on stderr after the start of notes. -/
def lostFailure : List LineCall := [.of .stdout "Notes", .of .stderr "error: disk full"]

/-- The notes take the line, and the run returns no known error. -/
theorem failing_run_silent :
    (∃ call ∈ lostFailure, call.line.stream = .stderr ∧ call.line.isBlank = false) ∧
      ({} : FallbackPolicy).fromStderr = true ∧ (⟨some 1, none⟩ : ExitCode).isSuccess = false ∧
      ((configured [] (fun _ => none) (some ⟨"Notes", "x.notes"⟩) (some {})).runEvents lostFailure
        ⟨some 1, none⟩ 0).any InterpreterEvent.isKnownError = false := by
  decide

/-- Without notes the same run returns one. -/
theorem failing_run_reports_plain :
    ((configured [] (fun _ => none) none (some {})).runEvents lostFailure ⟨some 1, none⟩ 0).any
        InterpreterEvent.isKnownError = true ↔
      ∃ line ∈ visible none lostFailure, Reportable [] {} line :=
  failing_run_reports_iff [] (fun _ => none) none lostFailure ⟨some 1, none⟩ 0 rfl rfl

end RuleInterpreter

end Execra
