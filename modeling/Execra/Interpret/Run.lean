import Execra.Foundation.Blocks
import Execra.Model.Interpret
import Mathlib.Data.List.TakeWhile

/-!
A run of the rule interpreter: its calls of `on_line`, and `on_exit` at the end.
What `on_line` does with a line depends first of all on where the line stands to
the notes. A line outside of them is classified, and that knows nothing of the
notes; so a run is taken apart into the lines that are classified and the bodies of
the notes.
-/

namespace Execra

/-- A call of `on_line`, with what the clock shows then. -/
structure LineCall where
  line : Line
  now : SystemTime
deriving DecidableEq

/-- A line that comes when the clock shows 0. -/
def LineCall.of (stream : Stream) (text : String) : LineCall :=
  { line := { stream, text, time := 0 }, now := 0 }

/-- Collection starts on a line equal to the trigger, after trimming. -/
def NotesConfig.isTrigger (notes : NotesConfig) (line : Line) : Bool :=
  trim line.text.toList = notes.trigger.toList

def Line.isBlank (line : Line) : Bool := trim line.text.toList = []

/-- A line that begins with `---`, after trimming. -/
def Line.isSeparator (line : Line) : Bool :=
  "---".toList.isPrefixOf (trimStart line.text.toList)

def InterpreterEvent.isFinding : InterpreterEvent → Bool
  | .finding _ => true
  | _ => false

def InterpreterEvent.isKnownError : InterpreterEvent → Bool
  | .knownError .. => true
  | _ => false

def RuleAction.isKnownError : RuleAction → Bool
  | .knownError .. => true
  | _ => false

namespace RuleInterpreter

/-- `RuleInterpreter::new`, and what `notes` and `fallback` attach. -/
def configured (rules : List Rule) (phases : String → Option (F32 × F32))
    (notes : Option NotesConfig) (fallback : Option FallbackPolicy) : RuleInterpreter :=
  { rules, phases, notes, fallback }

/-- The calls of `on_line`: what each returns, and the interpreter after them. -/
def onLines (self : RuleInterpreter) :
    List LineCall → List (List InterpreterEvent) × RuleInterpreter
  | [] => ([], self)
  | call :: calls =>
      let answered := self.onLine call.line call.now
      let rest := answered.2.onLines calls
      (answered.1 :: rest.1, rest.2)

/-- All events of a run, those of `on_exit` last. -/
def runEvents (self : RuleInterpreter) (calls : List LineCall) (exit : ExitCode)
    (now : SystemTime) : List InterpreterEvent :=
  (self.onLines calls).1.flatten ++ ((self.onLines calls).2.onExit exit now).1

/-- Whether a line starts notes, outside of them. -/
def opensNotes (notes : Option NotesConfig) (call : LineCall) : Bool :=
  notes.any (fun notes => notes.isTrigger call.line)

/-- Whether a line ends notes, inside of them. -/
def endsNotes (call : LineCall) : Bool := call.line.isBlank

/-- The lines outside of the notes, without their triggers. -/
def outsideNotes (notes : Option NotesConfig) (calls : List LineCall) : List LineCall :=
  Blocks.outside (opensNotes notes) endsNotes calls

/-- The lines of each of the notes, without the trigger and the blank line. -/
def notesBodies (notes : Option NotesConfig) (calls : List LineCall) : List (List LineCall) :=
  Blocks.bodies (opensNotes notes) endsNotes calls

/-- The lines of a body that get into the buffer. -/
def keptOf (body : List LineCall) : List String :=
  (body.filter (fun call => !call.line.isSeparator)).map (fun call => call.line.text)

/-- The interpreter apart from its notes. -/
@[simps] def apart (self : RuleInterpreter) : RuleInterpreter :=
  { self with inNotes := false, notesBuf := [] }

/-- The lines that are classified, one after the other. -/
def classifyAll (self : RuleInterpreter) :
    List LineCall → List InterpreterEvent × RuleInterpreter
  | [] => ([], self)
  | call :: calls =>
      let answered := self.classify call.line
      let rest := answered.2.classifyAll calls
      (answered.1 ++ rest.1, rest.2)

end RuleInterpreter

/-! A separator is not blank. -/

theorem Line.isBlank_of_isSeparator {line : Line} (h : line.isSeparator = true) :
    line.isBlank = false := by
  rw [isSeparator] at h
  have hstart : trimStart line.text.toList ≠ [] := by
    intro hnil
    rw [hnil] at h
    cases h
  have hhead : ∀ c ∈ (trimStart line.text.toList).head?, c = '-' := by
    intro c hc
    obtain ⟨rest, hrest⟩ := List.isPrefixOf_iff_prefix.mp h
    rw [← hrest] at hc
    exact (Option.mem_some.mp hc).symm
  have htrim : trim line.text.toList ≠ [] := by
    intro hnil
    rw [trim, List.reverse_eq_nil_iff, trimStart, List.dropWhile_eq_nil_iff] at hnil
    obtain ⟨c, hc⟩ := Option.isSome_iff_exists.mp (List.isSome_head?.mpr hstart)
    have hblank := hnil c (List.mem_reverse.mpr (List.mem_of_mem_head? hc))
    rw [hhead c hc] at hblank
    exact absurd hblank (by decide)
  simpa [isBlank] using htrim

namespace RuleInterpreter

variable {interp : RuleInterpreter} {call : LineCall}

/-! What is kept of notes. -/

theorem keptOf_append (body more : List LineCall) :
    keptOf (body ++ more) = keptOf body ++ keptOf more := by
  unfold keptOf
  rw [List.filter_append, List.map_append]

theorem keptOf_separator (h : call.line.isSeparator = true)
    (rest : List LineCall) : keptOf (call :: rest) = keptOf rest := by
  unfold keptOf
  rw [List.filter_cons_of_neg (by rw [h]; exact Bool.false_ne_true)]

theorem keptOf_line (h : call.line.isSeparator = false)
    (rest : List LineCall) : keptOf (call :: rest) = call.line.text :: keptOf rest := by
  unfold keptOf
  rw [List.filter_cons_of_pos (by rw [h]; rfl), List.map_cons]

/-! One call of `on_line`. -/

/-- What a call of `on_line` comes to, by where its line stands to the notes. -/
inductive Takes (interp : RuleInterpreter) (call : LineCall) :
    List InterpreterEvent × RuleInterpreter → Prop where
  | classified (hmode : interp.inNotes = false) (hopens : opensNotes interp.notes call = false) :
      Takes interp call (interp.classify call.line)
  | opened (hmode : interp.inNotes = false) (hopens : opensNotes interp.notes call = true) :
      Takes interp call ([], { interp with inNotes := true })
  | skipped (hmode : interp.inNotes = true) (hends : endsNotes call = false)
      (hsep : call.line.isSeparator = true) : Takes interp call ([], interp)
  | kept (hmode : interp.inNotes = true) (hends : endsNotes call = false)
      (hsep : call.line.isSeparator = false) :
      Takes interp call ([], { interp with notesBuf := interp.notesBuf ++ [call.line.text] })
  | flushed (hmode : interp.inNotes = true) (hends : endsNotes call = true) :
      Takes interp call (interp.flushNotes call.now)

theorem onLine_takes (hnotes : interp.inNotes = true → interp.notes.isSome = true) :
    interp.Takes call (interp.onLine call.line call.now) := by
  obtain ⟨rules, phases, notes, fallback, inNotes, notesBuf, phase, emitted, failed, stderr⟩ :=
    interp
  cases notes with
  | none =>
      cases inNotes with
      | true => exact absurd (hnotes rfl) Bool.false_ne_true
      | false => exact .classified rfl rfl
  | some notes =>
      cases inNotes with
      | true =>
          simp only [onLine, if_true]
          split
          · next hsep => exact .skipped rfl (Line.isBlank_of_isSeparator hsep) hsep
          · next hsep =>
              split
              · next hblank => exact .flushed rfl (decide_eq_true hblank)
              · next hblank =>
                  exact .kept rfl (decide_eq_false hblank) (Bool.eq_false_of_not_eq_true hsep)
      | false =>
          simp only [onLine, Bool.false_eq_true, if_false]
          split
          · next htrigger => exact .opened rfl (decide_eq_true htrigger)
          · next htrigger => exact .classified rfl (decide_eq_false htrigger)

/-! A line that is classified. -/

/-- A line on stderr is remembered before the table is consulted. -/
@[simps] def heard (self : RuleInterpreter) (line : Line) : RuleInterpreter :=
  { self with lastStderr := if line.stream = .stderr then some line.text else self.lastStderr }

/-- An unclassified line that is buffered for the fallback, when none is yet. -/
def buffers (fallback : Option FallbackPolicy) (line : Line) : Bool :=
  fallback.any FallbackPolicy.fromFailedLine && mentionsFailed line.text

/-- What `classify` comes to. -/
inductive Classifies (interp : RuleInterpreter) (line : Line) :
    List InterpreterEvent × RuleInterpreter → Prop where
  | empty (hempty : line.text = "") : Classifies interp line ([], interp)
  | matched (action caps) (hvisible : line.text ≠ "")
      (hmatch : firstMatch line.text interp.rules = some (action, caps)) :
      Classifies interp line ((interp.heard line).apply caps action)
  | unmatched (hvisible : line.text ≠ "") (hmatch : firstMatch line.text interp.rules = none) :
      Classifies interp line ([], { interp.heard line with
        fallbackError := interp.fallbackError.or
          (if buffers interp.fallback line then some line.text else none) })

theorem classify_eq_dispatch {line : Line} (hvisible : line.text ≠ "") :
    interp.classify line = (interp.heard line).dispatch line.text := by
  unfold classify heard
  rw [if_neg hvisible]
  split <;> rfl

theorem classify_classifies (line : Line) :
    interp.Classifies line (interp.classify line) := by
  by_cases hempty : line.text = ""
  · have hnothing : interp.classify line = ([], interp) := if_pos hempty
    rw [hnothing]
    exact .empty hempty
  · rw [classify_eq_dispatch hempty]
    cases hmatch : firstMatch line.text interp.rules with
    | some found =>
        have hfound : (interp.heard line).dispatch line.text =
            (interp.heard line).apply found.2 found.1 := by
          simp [dispatch, hmatch]
        rw [hfound]
        exact .matched found.1 found.2 hempty hmatch
    | none =>
        have hnone : (interp.heard line).dispatch line.text = ([], { interp.heard line with
            fallbackError := interp.fallbackError.or
              (if buffers interp.fallback line then some line.text else none) }) := by
          obtain ⟨_, _, _, fallback, _, _, _, _, failed, _⟩ := interp
          cases fallback <;> cases failed <;> simp [dispatch, buffers, heard, hmatch]
          split <;> rfl
        rw [hnone]
        exact .unmatched hempty hmatch

/-- The events of a `ByteProgressMb` rule. -/
def byteEvents (self : RuleInterpreter) (caps : Captures) : List InterpreterEvent :=
  match (caps 1).bind F64.parse, (caps 2).bind F64.parse with
  | some d, some t => if t.pos then [.progress (.fraction (self.byteFraction d t))] else []
  | _, _ => []

theorem apply_byteProgressMb (caps : Captures) :
    interp.apply caps .byteProgressMb = (interp.byteEvents caps, interp) := by
  simp only [apply, byteEvents]
  cases (caps 1).bind F64.parse with
  | none => rfl
  | some done =>
      cases (caps 2).bind F64.parse with
      | none => rfl
      | some total =>
          simp only
          split <;> rfl

/-- What the action of a rule does to the interpreter. -/
theorem apply_state (caps : Captures) (action : RuleAction) :
    (interp.apply caps action).2 = match action with
      | .enterPhase name _ => { interp with currentPhase := some name }
      | .knownError .. => { interp with emittedKnownError := true, fallbackError := none }
      | _ => interp := by
  cases action with
  | byteProgressMb => rw [apply_byteProgressMb]
  | _ => rfl

/-- A line that is classified changes the phase, and what the fallback needs. -/
theorem classify_frame (line : Line) : ∃ phase emitted failed stderr,
    (interp.classify line).2 = { interp with
      currentPhase := phase
      emittedKnownError := emitted
      fallbackError := failed
      lastStderr := stderr } := by
  have hclassifies : interp.Classifies line (interp.classify line) := classify_classifies line
  generalize interp.classify line = answered at hclassifies ⊢
  cases hclassifies with
  | empty => exact ⟨_, _, _, _, rfl⟩
  | matched action caps =>
      rw [apply_state]
      cases action <;> exact ⟨_, _, _, _, rfl⟩
  | unmatched => exact ⟨_, _, _, _, rfl⟩

/-- Closing a phase reports nothing but progress. -/
theorem exitCurrent_kinds : interp.exitCurrent.any InterpreterEvent.isFinding = false ∧
    interp.exitCurrent.any InterpreterEvent.isKnownError = false := by
  unfold exitCurrent
  rcases interp.currentPhase with _ | prev
  · exact ⟨rfl, rfl⟩
  · rcases hrange : interp.phases prev with _ | ⟨start, stop⟩ <;>
      simp only [hrange] <;> exact ⟨rfl, rfl⟩

/-- Only the action of a known error returns one, and no action a finding. -/
theorem apply_kinds (caps : Captures) (action : RuleAction) :
    (interp.apply caps action).1.any InterpreterEvent.isFinding = false ∧
      (interp.apply caps action).1.any InterpreterEvent.isKnownError = action.isKnownError := by
  cases action with
  | enterPhase name labelTemplate =>
      simp only [apply, List.any_append, exitCurrent_kinds]
      rcases interp.phases name with _ | ⟨start, stop⟩ <;> exact ⟨rfl, rfl⟩
  | byteProgressMb =>
      rw [apply_byteProgressMb, byteEvents]
      repeat' split
      all_goals exact ⟨rfl, rfl⟩
  | _ => exact ⟨rfl, rfl⟩

/-- The interpreter with its notes changed, and its last line on stderr. -/
def changed (self : RuleInterpreter) (mode : Bool → Bool) (buffer : List String → List String)
    (stderr : Option String → Option String) : RuleInterpreter :=
  { self with
    inNotes := mode self.inNotes
    notesBuf := buffer self.notesBuf
    lastStderr := stderr self.lastStderr }

section Changed

variable (mode : Bool → Bool) (buffer : List String → List String)
  (stderr : Option String → Option String)

theorem apply_changed (caps : Captures) (action : RuleAction) :
    (interp.changed mode buffer stderr).apply caps action =
      ((interp.apply caps action).1, (interp.apply caps action).2.changed mode buffer stderr) := by
  cases action with
  | byteProgressMb => rw [apply_byteProgressMb, apply_byteProgressMb]; rfl
  | _ => rfl

/-- The table is consulted on neither. -/
theorem dispatch_changed (text : String) :
    (interp.changed mode buffer stderr).dispatch text =
      ((interp.dispatch text).1, (interp.dispatch text).2.changed mode buffer stderr) := by
  have hrules : (interp.changed mode buffer stderr).rules = interp.rules := rfl
  have hfallback : (interp.changed mode buffer stderr).fallback = interp.fallback := rfl
  have herror : (interp.changed mode buffer stderr).fallbackError = interp.fallbackError := rfl
  unfold dispatch
  rw [hrules, hfallback, herror]
  rcases firstMatch text interp.rules with _ | ⟨action, caps⟩
  · rcases interp.fallback with _ | fb
    · rfl
    · simp only
      split <;> rfl
  · exact apply_changed mode buffer stderr caps action

end Changed

/-- Nothing that becomes of a line that is classified depends on the notes. -/
theorem classify_apart (line : Line) :
    interp.apart.classify line =
      ((interp.classify line).1, (interp.classify line).2.apart) := by
  by_cases hempty : line.text = ""
  · have hnothing (i : RuleInterpreter) : i.classify line = ([], i) := if_pos hempty
    rw [hnothing, hnothing]
  · rw [classify_eq_dispatch hempty, classify_eq_dispatch hempty]
    exact @dispatch_changed (interp.heard line) (fun _ => false) (fun _ => []) id line.text

/-! The exit. -/

/-- The known error that `on_exit` makes up: its code and its message. -/
def synthesized (self : RuleInterpreter) (exit : ExitCode) : Option (String × String) :=
  self.fallback.bind (fun fb =>
    if exit.isSuccess || self.emittedKnownError then none
    else
      ((if fb.fromFailedLine then self.fallbackError else none).or
        (if fb.fromStderr then self.lastStderr else none)).map (fun message => (fb.code, message)))

theorem fallbackEvents_eq (exit : ExitCode) :
    (interp.fallbackEvents exit).1 =
      (interp.synthesized exit).toList.map (fun error => .knownError error.1 error.2) := by
  obtain ⟨_, _, _, fallback, _, _, _, emitted, failed, stderr⟩ := interp
  rcases fallback with _ | ⟨code, fromFailedLine, fromStderr⟩
  · rfl
  · unfold fallbackEvents synthesized
    rcases hquiet : (exit.isSuccess || emitted)
    · cases fromFailedLine <;> cases fromStderr <;> cases failed <;> cases stderr <;> simp
    · simp

theorem flushNotes_apart (now : SystemTime) :
    (interp.flushNotes now).2 = interp.apart := by
  unfold flushNotes
  split
  · next hempty =>
      unfold apart
      rw [hempty]
  · rfl

theorem onExit_events (exit : ExitCode) (now : SystemTime) :
    (interp.onExit exit now).1 = (interp.flushNotes now).1 ++ interp.exitCurrent ++
      (interp.synthesized exit).toList.map (fun error => .knownError error.1 error.2) := by
  unfold onExit
  simp only [fallbackEvents_eq, flushNotes_apart]
  rfl

/-! A run. -/

/-- The buffer holds what is kept of the notes so far, outside of notes nothing. -/
structure Paired (interp : RuleInterpreter) (body : Option (List LineCall)) : Prop where
  notes : interp.inNotes = true → interp.notes.isSome = true
  mode : interp.inNotes = body.isSome
  buffer : interp.notesBuf = keptOf (body.getD [])

theorem configured_paired (rules : List Rule) (phases : String → Option (F32 × F32))
    (notes : Option NotesConfig) (fallback : Option FallbackPolicy) :
    (configured rules phases notes fallback).Paired none :=
  ⟨fun h => absurd h Bool.false_ne_true, rfl, rfl⟩

theorem Paired.outside {body : Option (List LineCall)} (h : interp.Paired body)
    (hmode : interp.inNotes = false) : body = none := by
  apply Option.not_isSome_iff_eq_none.mp
  rw [← h.mode, hmode]
  exact Bool.false_ne_true

theorem Paired.inside {body : Option (List LineCall)} (h : interp.Paired body)
    (hmode : interp.inNotes = true) : ∃ collected, body = some collected :=
  Option.isSome_iff_exists.mp (h.mode.symm.trans hmode)

/-- What a call comes to, in terms of the notes before and after it. -/
inductive Reads (interp : RuleInterpreter) (call : LineCall) : Option (List LineCall) →
    List InterpreterEvent × RuleInterpreter → Option (List LineCall) → Prop where
  | classified (hopens : opensNotes interp.notes call = false) :
      Reads interp call none (interp.classify call.line) none
  | opened (hopens : opensNotes interp.notes call = true) :
      Reads interp call none ([], { interp with inNotes := true }) (some [])
  | collected (body next) (hends : endsNotes call = false) (hapart : next.apart = interp.apart) :
      Reads interp call (some body) ([], next) (some (body ++ [call]))
  | flushed (body) (hends : endsNotes call = true) :
      Reads interp call (some body) (interp.flushNotes call.now) none

theorem Paired.onLine {body : Option (List LineCall)} (h : interp.Paired body) (call : LineCall) :
    ∃ next, interp.Reads call body (interp.onLine call.line call.now) next ∧
      (interp.onLine call.line call.now).2.Paired next := by
  have htakes : interp.Takes call (interp.onLine call.line call.now) := onLine_takes h.notes
  generalize interp.onLine call.line call.now = answered at htakes ⊢
  cases htakes with
  | classified hquiet hopens =>
      obtain rfl := h.outside hquiet
      obtain ⟨phase, emitted, failed, stderr, hframe⟩ := classify_frame call.line
      refine ⟨none, .classified hopens, ?_⟩
      rw [hframe]
      exact ⟨h.notes, h.mode, h.buffer⟩
  | opened hquiet hopens =>
      obtain rfl := h.outside hquiet
      refine ⟨some [], .opened hopens, ⟨fun _ => ?_, rfl, h.buffer⟩⟩
      cases hnotes : interp.notes with
      | none => rw [opensNotes, hnotes] at hopens; cases hopens
      | some notes => rfl
  | skipped hcollects hends hsep =>
      obtain ⟨body, rfl⟩ := h.inside hcollects
      refine ⟨some (body ++ [call]), .collected body interp hends rfl, h.notes, h.mode, ?_⟩
      rw [h.buffer, Option.getD_some, Option.getD_some, keptOf_append, keptOf_separator hsep]
      exact (List.append_nil _).symm
  | kept hcollects hends hsep =>
      obtain ⟨body, rfl⟩ := h.inside hcollects
      refine ⟨some (body ++ [call]), .collected body _ hends rfl, h.notes, h.mode, ?_⟩
      change interp.notesBuf ++ [call.line.text] = _
      rw [h.buffer, Option.getD_some, Option.getD_some, keptOf_append, keptOf_line hsep]
      rfl
  | flushed hcollects hends =>
      obtain ⟨body, rfl⟩ := h.inside hcollects
      refine ⟨none, .flushed body hends, ?_⟩
      rw [flushNotes_apart]
      exact ⟨fun hmode => absurd hmode Bool.false_ne_true, rfl, rfl⟩

theorem Reads.notes {body next : Option (List LineCall)}
    {answered : List InterpreterEvent × RuleInterpreter}
    (h : interp.Reads call body answered next) :
    answered.2.notes = interp.notes := by
  cases h with
  | classified hopens =>
      obtain ⟨phase, emitted, failed, stderr, hframe⟩ :=
        @classify_frame interp call.line
      rw [hframe]
  | opened => rfl
  | collected body next hends hapart =>
      exact (congrArg RuleInterpreter.notes hapart : next.apart.notes = interp.apart.notes)
  | flushed => rw [flushNotes_apart, apart_notes]

theorem flushNotes_findings (now : SystemTime) :
    (interp.flushNotes now).1.all InterpreterEvent.isFinding = true := by
  unfold flushNotes
  split <;> rfl

theorem classify_findings (line : Line) :
    (interp.classify line).1.any InterpreterEvent.isFinding = false := by
  have hclassifies : interp.Classifies line (interp.classify line) := classify_classifies line
  generalize interp.classify line = answered at hclassifies ⊢
  cases hclassifies with
  | matched action caps => exact (apply_kinds caps action).1
  | empty | unmatched => rfl

theorem filter_of_any_false {evs : List InterpreterEvent}
    (h : evs.any InterpreterEvent.isFinding = false) :
    evs.filter (fun ev => !ev.isFinding) = evs := by
  refine List.filter_eq_self.mpr (fun ev hev => ?_)
  simpa using List.any_eq_false.mp h ev hev

/-- The calls of a run, apart from the notes: the lines outside of them are
classified, and nothing else happens. -/
theorem Paired.onLines {body : Option (List LineCall)} (h : interp.Paired body)
    (calls : List LineCall) :
    ((interp.onLines calls).1.flatten.filter (fun ev => !ev.isFinding),
      (interp.onLines calls).2.apart) =
    interp.apart.classifyAll
      (Blocks.outsideFrom (opensNotes interp.notes) endsNotes body.isSome calls) := by
  induction calls generalizing interp body with
  | nil => cases body <;> rfl
  | cons call calls ih =>
      obtain ⟨next, hreads, hnext⟩ := h.onLine call
      simp only [RuleInterpreter.onLines, List.flatten_cons, List.filter_append]
      generalize interp.onLine call.line call.now = answered at hreads hnext ⊢
      have hrest := ih hnext
      rw [hreads.notes] at hrest
      cases hreads with
      | classified hopens =>
          have hown := filter_of_any_false (@classify_findings interp call.line)
          obtain ⟨hevents, hstate⟩ := Prod.ext_iff.mp hrest
          simp only [Option.isSome_none, Blocks.outsideFrom, hopens, Bool.false_eq_true, if_false,
            classifyAll, classify_apart]
          exact Prod.ext (congrArg₂ _ hown hevents) hstate
      | opened hopens =>
          simp only [Option.isSome_none, Blocks.outsideFrom, hopens, if_true]
          exact hrest
      | collected body next hends hapart =>
          simp only [Option.isSome_some, Blocks.outsideFrom, hends]
          rw [hapart] at hrest
          exact hrest
      | flushed body hends =>
          simp only [Option.isSome_some, Blocks.outsideFrom, hends]
          have hflushed : (interp.flushNotes call.now).1.filter (fun ev => !ev.isFinding) = [] := by
            refine List.filter_eq_nil_iff.mpr (fun ev hev => ?_)
            simp [List.all_eq_true.mp (flushNotes_findings call.now) ev hev]
          rw [hflushed]
          have hstate : (interp.flushNotes call.now).2.apart = interp.apart := by
            rw [flushNotes_apart]
            rfl
          rw [hstate] at hrest
          exact hrest

end RuleInterpreter

end Execra
