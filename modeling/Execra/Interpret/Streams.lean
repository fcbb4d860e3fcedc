import Execra.Interpret.Fallback

/-!
Two runs on the same texts, which may have come on other streams. Of a stream the
interpreter keeps the last line on stderr, and nothing reads that but the fallback.
-/

namespace Execra

/-- The calls differ at most in the stream of their line. -/
def LineCall.SameText (call other : LineCall) : Prop :=
  call.line.text = other.line.text ∧ call.now = other.now

namespace RuleInterpreter

/-- The interpreter with another last line on stderr. -/
@[simps] def withStderr (self : RuleInterpreter) (stderr : Option String) : RuleInterpreter :=
  { self with lastStderr := stderr }

variable {interp : RuleInterpreter} (stderr : Option String)

theorem flushNotes_withStderr (now : SystemTime) :
    (interp.withStderr stderr).flushNotes now =
      ((interp.flushNotes now).1, (interp.flushNotes now).2.withStderr stderr) := by
  unfold flushNotes
  simp only [withStderr_notesBuf]
  split <;> rfl

/-- A line with the same text on another stream. -/
theorem classify_withStderr {line other : Line} (htext : line.text = other.text) :
    ∃ later, (interp.withStderr stderr).classify other =
      ((interp.classify line).1, (interp.classify line).2.withStderr later) := by
  by_cases hempty : line.text = ""
  · refine ⟨stderr, ?_⟩
    have hnothing : interp.classify line = ([], interp) := if_pos hempty
    rw [hnothing]
    exact if_pos (htext ▸ hempty)
  · have hother : other.text ≠ "" := htext ▸ hempty
    refine ⟨((interp.withStderr stderr).heard other).lastStderr, ?_⟩
    rw [classify_eq_dispatch hempty, classify_eq_dispatch hother, htext]
    exact @dispatch_changed (interp.heard line) id id
      (fun _ => ((interp.withStderr stderr).heard other).lastStderr) other.text

theorem onLine_withStderr {line other : Line} (htext : line.text = other.text)
    (now : SystemTime) : ∃ later, (interp.withStderr stderr).onLine other now =
      ((interp.onLine line now).1, (interp.onLine line now).2.withStderr later) := by
  unfold onLine
  simp only [withStderr_notes, withStderr_inNotes, withStderr_notesBuf, htext]
  rcases interp.notes with _ | notes
  · exact classify_withStderr stderr htext
  · simp only
    split
    · split
      · exact ⟨stderr, rfl⟩
      · split
        · exact ⟨stderr, flushNotes_withStderr stderr now⟩
        · exact ⟨stderr, rfl⟩
    · split
      · exact ⟨stderr, rfl⟩
      · exact classify_withStderr stderr htext

theorem onLines_withStderr {calls others : List LineCall}
    (h : List.Forall₂ LineCall.SameText calls others) :
    ∃ later, (interp.withStderr stderr).onLines others =
      ((interp.onLines calls).1, (interp.onLines calls).2.withStderr later) := by
  induction h generalizing interp stderr with
  | nil => exact ⟨stderr, rfl⟩
  | @cons call other calls others hsame _ ih =>
      obtain ⟨htext, hnow⟩ := hsame
      obtain ⟨middle, hcall⟩ := @onLine_withStderr interp stderr _ _ htext call.now
      obtain ⟨later, hrest⟩ := @ih (interp.onLine call.line call.now).2 middle
      refine ⟨later, ?_⟩
      simp only [onLines, ← hnow, hcall, hrest]

/-! The exit. -/

/-- Events without the known errors among them. -/
def withoutErrors (evs : List InterpreterEvent) : List InterpreterEvent :=
  evs.filter (fun ev => !ev.isKnownError)

theorem withoutErrors_onExit (interp : RuleInterpreter) (exit : ExitCode) (now : SystemTime) :
    withoutErrors (interp.onExit exit now).1 =
      withoutErrors ((interp.flushNotes now).1 ++ interp.exitCurrent) := by
  have hsynthesized : withoutErrors ((interp.synthesized exit).toList.map
      (fun error => .knownError error.1 error.2)) = [] := by
    cases interp.synthesized exit <;> rfl
  rw [onExit_events]
  simp only [withoutErrors, List.filter_append] at hsynthesized ⊢
  rw [hsynthesized, List.append_nil]

/-- With a line buffered, the last one on stderr is not needed. -/
theorem synthesized_withStderr (exit : ExitCode)
    (hbuffered : interp.emittedKnownError = false → interp.fallbackError.isSome = true ∧
      interp.fallback.any FallbackPolicy.fromFailedLine = true) :
    (interp.withStderr stderr).synthesized exit = interp.synthesized exit := by
  unfold synthesized
  simp only [withStderr_fallback, withStderr_emittedKnownError, withStderr_fallbackError]
  refine Option.bind_congr (fun fb hfb => ?_)
  split
  · rfl
  · next hquiet =>
      have hnone := (Bool.or_eq_false_iff.mp (Bool.eq_false_of_not_eq_true hquiet)).2
      obtain ⟨hsome, hflag⟩ := hbuffered hnone
      obtain ⟨message, hmessage⟩ := Option.isSome_iff_exists.mp hsome
      rw [hfb, Option.any_some] at hflag
      rw [hflag, hmessage]
      rfl

/-- On which streams the lines of a run come makes no difference to what `on_line`
returns, nor to the interpreter apart from the last line on stderr. The events of
`on_exit` are the same but for the known error it makes up; and they are all the same
if an unclassified line that mentions a failure was buffered. -/
theorem streams_reach_fallback_only (rules : List Rule) (phases : String → Option (F32 × F32))
    (notes : Option NotesConfig) (fallback : Option FallbackPolicy)
    {calls others : List LineCall} (h : List.Forall₂ LineCall.SameText calls others)
    (exit : ExitCode) (now : SystemTime) :
    let run := (configured rules phases notes fallback).onLines calls
    let other := (configured rules phases notes fallback).onLines others
    run.1 = other.1 ∧ run.2.withStderr none = other.2.withStderr none ∧
      withoutErrors (run.2.onExit exit now).1 = withoutErrors (other.2.onExit exit now).1 ∧
      ((run.2.onExit exit now).1 ≠ (other.2.onExit exit now).1 → run.2.fallbackError = none) := by
  intro run other
  obtain ⟨later, hother⟩ := @onLines_withStderr (configured rules phases notes fallback) none _ _ h
  change other = (run.1, run.2.withStderr later) at hother
  rw [hother]
  refine ⟨rfl, rfl, ?_, fun hdiffers => ?_⟩
  · rw [withoutErrors_onExit, withoutErrors_onExit, flushNotes_withStderr]
    rfl
  by_contra hsome
  have htracks := onLines_tracks rules phases notes fallback calls
  change (configured rules phases notes fallback).Tracks run.2 _ _ at htracks
  have hbuffered : run.2.emittedKnownError = false → run.2.fallbackError.isSome = true ∧
      run.2.fallback.any FallbackPolicy.fromFailedLine = true := by
    intro hquiet
    refine ⟨Option.isSome_iff_ne_none.mpr hsome, ?_⟩
    have hfailed := htracks.failed hquiet
    rw [htracks.fallback]
    by_contra hflag
    rw [if_neg hflag] at hfailed
    exact hsome hfailed
  apply hdiffers
  rw [onExit_events, onExit_events, flushNotes_withStderr,
    synthesized_withStderr later exit hbuffered]
  rfl

/-- The same two lines, once on stderr and once not. -/
theorem streams_reach_fallback_only_swapped :
    let run := (configured [] (fun _ => none) none (some {})).onLines
      [.of .stderr "x failed", .of .stdout "y"]
    let other := (configured [] (fun _ => none) none (some {})).onLines
      [.of .stdout "x failed", .of .stderr "y"]
    run.1 = other.1 ∧ run.2.withStderr none = other.2.withStderr none ∧
      withoutErrors (run.2.onExit ⟨some 1, none⟩ 0).1 =
        withoutErrors (other.2.onExit ⟨some 1, none⟩ 0).1 ∧
      ((run.2.onExit ⟨some 1, none⟩ 0).1 ≠ (other.2.onExit ⟨some 1, none⟩ 0).1 →
        run.2.fallbackError = none) :=
  streams_reach_fallback_only [] (fun _ => none) none (some {})
    (.cons ⟨rfl, rfl⟩ (.cons ⟨rfl, rfl⟩ .nil)) ⟨some 1, none⟩ 0

end RuleInterpreter

end Execra
