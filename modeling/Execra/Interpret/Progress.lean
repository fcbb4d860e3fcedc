import Execra.Interpret.Run
import Execra.Model.Rounding
import Mathlib.Data.List.Chain

/-!
The progress of an ordered pipeline, with the arithmetic of rational numbers. A run is
seen as its marks: the phases that are entered, and the ratios that are reported in
between. If the ranges of the phases follow each other and the ratios rise in each,
the fractions that the interpreter emits never fall.
-/

namespace Execra

/-- What moves the progress: a phase, or a line that reports how much is done of how
much in total. -/
inductive Mark where
  | entered (name : String)
  | reported (ratio : F64)
deriving DecidableEq

def Mark.name? : Mark → Option String
  | .entered name => some name
  | .reported _ => none

/-- `x <= y` -/
def F64.le : F64 → F64 → Bool
  | .nan, _ | _, .nan => false
  | .inf true, _ | _, .inf false => true
  | .inf false, _ | _, .inf true => false
  | .finite p, .finite q => decide (p ≤ q)

/-- The ratio that the captures of a `ByteProgressMb` rule report. -/
def reportedRatio (caps : Captures) : Option F64 :=
  match (caps 1).bind (F64.parseBy .exact), (caps 2).bind (F64.parseBy .exact) with
  | some d, some t => if t.pos then some (d.divPosBy .exact t) else none
  | _, _ => none

def InterpreterEvent.fraction? : InterpreterEvent → Option F32
  | .progress (.determinate (.fraction value)) => some value
  | _ => none

def InterpreterEvent.entered? : InterpreterEvent → Option String
  | .enterPhase name _ => some name
  | _ => none

/-- The determinate fractions of some events. -/
def fractionsIn (evs : List InterpreterEvent) : List F32 :=
  evs.filterMap InterpreterEvent.fraction?

/-- The phase that some events have entered last. -/
def latestPhase (evs : List InterpreterEvent) : Option String :=
  (evs.filterMap InterpreterEvent.entered?).getLast?

section Orderly

variable (phases : String → Option (F32 × F32))

/-- The phase has a range within the unit interval. -/
def Ranged (name : String) : Prop :=
  ∃ start stop : ℚ, phases name = some (.finite start, .finite stop) ∧
    0 ≤ start ∧ start ≤ stop ∧ stop ≤ 1

/-- The range of the second phase does not begin before that of the first ends. -/
def Follows (name next : String) : Prop :=
  ∀ start stop start' stop', phases name = some (.finite start, .finite stop) →
    phases next = some (.finite start', .finite stop') → stop ≤ start'

/-- Of two ratios that are reported one after the other the second is not lower. -/
def Mark.Rises : Mark → Mark → Prop
  | .reported ratio, .reported next => ratio.le next = true
  | _, _ => True

/-- An ordered pipeline, from a place in the phase `current` right after the mark
`latest`. -/
structure Orderly (current : Option String) (latest : Option Mark) (marks : List Mark) : Prop where
  ranged : ∀ name, .entered name ∈ marks → Ranged phases name
  ordered : (current.toList ++ marks.filterMap Mark.name?).IsChain (Follows phases)
  inPhase : current = none → ∀ before ratio after, marks = before ++ .reported ratio :: after →
    ∃ name, .entered name ∈ before
  numbers : ∀ ratio, .reported ratio ∈ marks → ratio ≠ .nan
  rising : (latest.toList ++ marks).IsChain Mark.Rises

/-- Events that take the progress from a fraction in one phase to a fraction in
another: no fraction is lower than the one before, or leaves the range of its phase. -/
inductive Climbs : Option String → ℚ → List InterpreterEvent → Option String → ℚ → Prop where
  | done (latest low) : Climbs latest low [] latest low
  | other {latest low ev evs last high} (hvalue : ev.fraction? = none)
      (hrest : Climbs (ev.entered?.or latest) low evs last high) :
      Climbs latest low (ev :: evs) last high
  | fraction {latest low ev evs last high} (value : ℚ)
      (hvalue : ev.fraction? = some (.finite value))
      (hlow : low ≤ value) (hone : value ≤ 1)
      (hrange : ∀ name start stop, latest = some name →
        phases name = some (.finite start, .finite stop) → start ≤ value ∧ value ≤ stop)
      (hrest : Climbs latest value evs last high) :
      Climbs latest low (ev :: evs) last high

end Orderly

namespace RuleInterpreter

/-- The rule that a line comes to, with its captures. -/
def matched (self : RuleInterpreter) (line : Line) : Option (RuleAction × Captures) :=
  if self.notes.any (fun notes => self.inNotes || notes.isTrigger line) then none
  else if line.text = "" then none
  else firstMatch line.text self.rules

/-- The events of `on_line`, with the arithmetic of a rounding. -/
def onLineBy (r : Rounding) (self : RuleInterpreter) (call : LineCall) : List InterpreterEvent :=
  match self.matched call.line with
  | some (.byteProgressMb, caps) => self.byteEventsBy r caps
  | _ => (self.onLine call.line call.now).1

/-- The events of all calls of `on_line`. -/
def onLinesBy (r : Rounding) (self : RuleInterpreter) : List LineCall → List InterpreterEvent
  | [] => []
  | call :: calls =>
      self.onLineBy r call ++ (self.onLine call.line call.now).2.onLinesBy r calls

/-- The events of a run. -/
def runEventsBy (r : Rounding) (self : RuleInterpreter) (calls : List LineCall) (exit : ExitCode)
    (now : SystemTime) : List InterpreterEvent :=
  self.onLinesBy r calls ++ ((self.onLines calls).2.onExit exit now).1

/-- The mark of a line. -/
def markOf (self : RuleInterpreter) (line : Line) : Option Mark :=
  match self.matched line with
  | some (.enterPhase name _, _) => some (.entered name)
  | some (.byteProgressMb, caps) => (reportedRatio caps).map .reported
  | _ => none

/-- The marks of a run. -/
def marks (self : RuleInterpreter) : List LineCall → List Mark
  | [] => []
  | call :: calls =>
      (self.markOf call.line).toList ++ (self.onLine call.line call.now).2.marks calls

variable {interp : RuleInterpreter} {call : LineCall}

/-! One call. -/

theorem byteEventsBy_nearest (caps : Captures) :
    interp.byteEventsBy .nearest caps = interp.byteEvents caps := by
  simp only [byteEventsBy, byteEvents, byteFractionBy_nearest]
  rfl

/-- What a call does, by the rule its line comes to. -/
inductive Matches (interp : RuleInterpreter) (call : LineCall) :
    Option (RuleAction × Captures) → List InterpreterEvent × RuleInterpreter → Prop where
  | table (action caps) :
      Matches interp call (some (action, caps)) ((interp.heard call.line).apply caps action)
  | quiet (evs next) (hfractions : fractionsIn evs = []) (hphase : latestPhase evs = none)
      (hcurrent : next.currentPhase = interp.currentPhase) (hphases : next.phases = interp.phases) :
      Matches interp call none (evs, next)

theorem classify_matches : interp.Matches call
    (if call.line.text = "" then none else firstMatch call.line.text interp.rules)
    (interp.classify call.line) := by
  have hclassifies : interp.Classifies call.line (interp.classify call.line) :=
    classify_classifies call.line
  generalize interp.classify call.line = answered at hclassifies ⊢
  cases hclassifies with
  | empty hempty =>
      rw [if_pos hempty]
      exact .quiet [] interp rfl rfl rfl rfl
  | matched action caps hvisible hmatch =>
      rw [if_neg hvisible, hmatch]
      exact .table action caps
  | unmatched hvisible hmatch =>
      rw [if_neg hvisible, hmatch]
      exact .quiet [] _ rfl rfl rfl rfl

/-- Inside of notes, and on a trigger, no rule is looked for. -/
theorem matched_eq (hnotes : interp.inNotes = true → interp.notes.isSome = true) :
    interp.matched call.line =
      if interp.inNotes || opensNotes interp.notes call then none
      else if call.line.text = "" then none else firstMatch call.line.text interp.rules := by
  unfold matched opensNotes
  cases hconfig : interp.notes with
  | none =>
      cases hmode : interp.inNotes with
      | true => simp [hconfig] at hnotes; simp [hnotes] at hmode
      | false => simp
  | some notes =>
      cases interp.inNotes <;> cases notes.isTrigger call.line <;> simp

/-- The finding of the notes is no progress. -/
theorem flushNotes_quiet (now : SystemTime) :
    fractionsIn (interp.flushNotes now).1 = [] ∧ latestPhase (interp.flushNotes now).1 = none := by
  unfold flushNotes
  split <;> exact ⟨rfl, rfl⟩

/-- Nor is an error that is made up in the end. -/
theorem synthesized_quiet (exit : ExitCode) :
    let errors := (interp.synthesized exit).toList.map
      (fun error => InterpreterEvent.knownError error.1 error.2)
    fractionsIn errors = [] ∧ latestPhase errors = none := by
  cases interp.synthesized exit <;> exact ⟨rfl, rfl⟩

theorem onLine_matches (hnotes : interp.inNotes = true → interp.notes.isSome = true) :
    interp.Matches call (interp.matched call.line) (interp.onLine call.line call.now) := by
  have htakes : interp.Takes call (interp.onLine call.line call.now) := onLine_takes hnotes
  generalize interp.onLine call.line call.now = answered at htakes ⊢
  rw [matched_eq hnotes]
  cases htakes with
  | classified hmode hopens =>
      rw [hmode, hopens]
      exact classify_matches
  | opened hmode hopens =>
      rw [hopens, Bool.or_true]
      exact .quiet [] _ rfl rfl rfl rfl
  | skipped hmode | kept hmode =>
      rw [hmode, Bool.true_or]
      exact .quiet [] _ rfl rfl rfl rfl
  | flushed hmode =>
      rw [hmode, Bool.true_or]
      obtain ⟨hfractions, hphase⟩ := @flushNotes_quiet interp call.now
      refine .quiet _ (interp.flushNotes call.now).2 hfractions hphase ?_ ?_
      all_goals rw [flushNotes_apart]; rfl

/-- Rounded to the nearest values, these are the events of `on_line`. -/
theorem onLineBy_nearest (hnotes : interp.inNotes = true → interp.notes.isSome = true) :
    interp.onLineBy .nearest call = (interp.onLine call.line call.now).1 := by
  have hmatches : interp.Matches call (interp.matched call.line)
      (interp.onLine call.line call.now) := onLine_matches hnotes
  unfold onLineBy
  generalize interp.onLine call.line call.now = answered at hmatches ⊢
  generalize interp.matched call.line = found at hmatches ⊢
  cases hmatches with
  | quiet => rfl
  | table action caps =>
      cases action with
      | byteProgressMb =>
          rw [apply_byteProgressMb]
          exact byteEventsBy_nearest caps
      | _ => rfl

theorem onLinesBy_nearest {body : Option (List LineCall)} (h : interp.Paired body)
    (calls : List LineCall) :
    interp.onLinesBy .nearest calls = (interp.onLines calls).1.flatten := by
  induction calls generalizing interp body with
  | nil => rfl
  | cons call calls ih =>
      obtain ⟨next, -, hnext⟩ := h.onLine call
      rw [onLinesBy, onLineBy_nearest h.notes, ih hnext]
      rfl

end RuleInterpreter

/-! What an ordered pipeline is made of. -/

section Orderly

variable {phases : String → Option (F32 × F32)} {current : Option String} {latest : Option Mark}
  {marks : List Mark}

theorem Orderly.enter {name : String}
    (h : Orderly phases current latest (.entered name :: marks)) :
    Ranged phases name ∧ (∀ before, current = some before → Follows phases before name) ∧
      Orderly phases (some name) (some (.entered name)) marks := by
  refine ⟨h.ranged name List.mem_cons_self, fun before hbefore => ?_, ?_⟩
  · have hordered := h.ordered
    rw [hbefore] at hordered
    exact (List.isChain_cons_cons.mp hordered).1
  · refine ⟨fun other hother => h.ranged other (List.mem_cons_of_mem _ hother), ?_,
      (fun hnone => by cases hnone), fun ratio hratio => h.numbers ratio
        (List.mem_cons_of_mem _ hratio), ?_⟩
    · exact h.ordered.right_of_append
    · exact h.rising.right_of_append

theorem Orderly.report {ratio : F64}
    (h : Orderly phases current latest (.reported ratio :: marks)) :
    current ≠ none ∧ ratio ≠ .nan ∧ (∀ mark, latest = some mark → mark.Rises (.reported ratio)) ∧
      Orderly phases current (some (.reported ratio)) marks := by
  refine ⟨fun hnone => ?_, h.numbers ratio List.mem_cons_self, fun mark hmark => ?_, ?_⟩
  · obtain ⟨name, hname⟩ := h.inPhase hnone [] ratio marks rfl
    cases hname
  · have hrising := h.rising
    rw [hmark] at hrising
    exact (List.isChain_cons_cons.mp hrising).1
  · refine ⟨fun other hother => h.ranged other (List.mem_cons_of_mem _ hother), h.ordered,
      fun hnone => ?_, fun other hother => h.numbers other (List.mem_cons_of_mem _ hother), ?_⟩
    · obtain ⟨name, hname⟩ := h.inPhase hnone [] ratio marks rfl
      cases hname
    · exact h.rising.right_of_append

end Orderly

/-! The share of its phase that a ratio stands for. -/

/-- A ratio, clamped to the unit interval. -/
def F64.share (ratio : F64) : ℚ :=
  match ratio.clampUnit with
  | .finite q => q
  | _ => 0

theorem F64.share_bounds (ratio : F64) : 0 ≤ ratio.share ∧ ratio.share ≤ 1 := by
  cases ratio with
  | nan => exact ⟨le_refl _, zero_le_one⟩
  | inf negative => cases negative <;> exact ⟨by decide, by decide⟩
  | finite q => exact ⟨le_max_left _ _, max_le zero_le_one (min_le_right _ _)⟩

theorem F64.share_mono {x y : F64} (h : x.le y = true) : x.share ≤ y.share := by
  cases x with
  | nan => cases h
  | inf negative =>
      cases negative with
      | true => exact y.share_bounds.1
      | false =>
          cases y with
          | inf negative => cases negative <;> first | exact le_refl _ | cases h
          | _ => cases h
  | finite p =>
      cases y with
      | nan => cases h
      | inf negative =>
          cases negative with
          | true => cases h
          | false => exact (F64.finite p).share_bounds.2
      | finite q =>
          exact max_le_max_left 0 (min_le_min_right 1 (of_decide_eq_true h))

theorem F64.clampUnit_eq {ratio : F64} (h : ratio ≠ .nan) :
    ratio.clampUnit = .finite ratio.share := by
  cases ratio with
  | nan => exact absurd rfl h
  | _ => rfl

/-- How far into its phase the progress is at a mark. -/
def Mark.share : Mark → ℚ
  | .entered _ => 0
  | .reported ratio => ratio.share

theorem Mark.share_bounds (mark : Mark) : 0 ≤ mark.share ∧ mark.share ≤ 1 := by
  cases mark with
  | entered => exact ⟨le_refl _, zero_le_one⟩
  | reported ratio => exact ratio.share_bounds

theorem Mark.Rises.share_le {mark : Mark} {ratio : F64} (h : mark.Rises (.reported ratio)) :
    mark.share ≤ ratio.share := by
  cases mark with
  | entered => exact ratio.share_bounds.1
  | reported before => exact F64.share_mono h

/-! Climbing. -/

section Climbs

variable {phases : String → Option (F32 × F32)} {latest between last : Option String}
  {low middle high : ℚ} {evs rest : List InterpreterEvent}

theorem Climbs.append (h : Climbs phases latest low evs between middle)
    (hrest : Climbs phases between middle rest last high) :
    Climbs phases latest low (evs ++ rest) last high := by
  induction h with
  | done => exact hrest
  | other hvalue _ ih => exact .other hvalue (ih hrest)
  | fraction value hvalue hlow hone hrange _ ih =>
      exact .fraction value hvalue hlow hone hrange (ih hrest)

/-- Events without a fraction, that enter no phase. -/
theorem Climbs.quiet (hfractions : fractionsIn evs = []) (hphase : latestPhase evs = none) :
    Climbs phases latest low evs latest low := by
  induction evs with
  | nil => exact .done latest low
  | cons ev evs ih =>
      have hfraction := List.filterMap_eq_nil_iff.mp hfractions
      have hentered := List.filterMap_eq_nil_iff.mp (List.getLast?_eq_none_iff.mp hphase)
      apply Climbs.other (hfraction ev List.mem_cons_self)
      rw [hentered ev List.mem_cons_self, Option.none_or]
      apply ih
      · exact List.filterMap_eq_nil_iff.mpr fun other hother =>
          hfraction other (List.mem_cons_of_mem _ hother)
      · rw [latestPhase, List.getLast?_eq_none_iff]
        exact List.filterMap_eq_nil_iff.mpr fun other hother =>
          hentered other (List.mem_cons_of_mem _ hother)

theorem clamp01_finite {q : ℚ} (hzero : 0 ≤ q) (hone : q ≤ 1) :
    clamp01 (.finite q) = .finite q := by
  rw [clamp01, min_eq_left hone, max_eq_right hzero]

/-- A fraction that is reported on its own, in the range of its phase. -/
theorem Climbs.inside {name : String} {start stop q : ℚ}
    (hphase : phases name = some (.finite start, .finite stop)) (hzero : 0 ≤ start)
    (hone : stop ≤ 1) (hlow : low ≤ q) (hplace : start ≤ q ∧ q ≤ stop) :
    Climbs phases (some name) low [.progress (.fraction (.finite q))] (some name) q := by
  apply Climbs.fraction q _ hlow (le_trans hplace.2 hone) _ (.done _ q)
  · change some (clamp01 (.finite q)) = _
    rw [clamp01_finite (le_trans hzero hplace.1) (le_trans hplace.2 hone)]
  · intro other start' stop' hother hphase'
    cases hother
    cases hphase.symm.trans hphase'
    exact hplace

/-- The fractions rise from the first to the last. -/
theorem Climbs.chain (h : Climbs phases latest low evs last high) :
    ∃ values : List ℚ, fractionsIn evs = values.map .finite ∧ (low :: values).IsChain (· ≤ ·) ∧
      ∀ value ∈ values, value ≤ 1 := by
  induction h with
  | done => exact ⟨[], rfl, .singleton _, List.forall_mem_nil _⟩
  | other hvalue _ ih =>
      obtain ⟨values, hvalues, hchain⟩ := ih
      refine ⟨values, ?_, hchain⟩
      rw [← hvalues]
      exact List.filterMap_cons_none hvalue
  | fraction value hvalue hlow hone _ _ ih =>
      obtain ⟨values, hvalues, hchain, hunit⟩ := ih
      refine ⟨value :: values, ?_, List.isChain_cons_cons.mpr ⟨hlow, hchain⟩,
        List.forall_mem_cons.mpr ⟨hone, hunit⟩⟩
      rw [List.map_cons, ← hvalues]
      exact List.filterMap_cons_some hvalue

theorem latestPhase_cons (ev : InterpreterEvent) (evs : List InterpreterEvent) :
    latestPhase (ev :: evs) = (latestPhase evs).or ev.entered? := by
  unfold latestPhase
  cases hentered : ev.entered? with
  | none => rw [List.filterMap_cons_none hentered, Option.or_none]
  | some name =>
      rw [List.filterMap_cons_some hentered, List.getLast?_cons]
      cases (evs.filterMap InterpreterEvent.entered?).getLast? <;> rfl

/-- A fraction enters no phase. -/
theorem entered_of_fraction {ev : InterpreterEvent} {value : F32}
    (h : ev.fraction? = some value) : ev.entered? = none := by
  cases ev with
  | enterPhase => cases h
  | _ => rfl

/-- The phase in the end is the one that was entered last. -/
theorem Climbs.last_eq (h : Climbs phases latest low evs last high) :
    last = (latestPhase evs).or latest := by
  induction h with
  | done => rfl
  | other hvalue _ ih => rw [ih, latestPhase_cons, Option.or_assoc]
  | fraction value hvalue _ _ _ _ ih =>
      rw [ih, latestPhase_cons, entered_of_fraction hvalue, Option.or_none]

/-- Each fraction is within the range of the phase that was entered last. -/
theorem Climbs.within (h : Climbs phases latest low evs last high)
    {before after : List InterpreterEvent} {ev : InterpreterEvent} {value : F32}
    (hevs : evs = before ++ ev :: after) (hvalue : ev.fraction? = some value)
    {name : String} {start stop : ℚ} (hname : (latestPhase before).or latest = some name)
    (hphase : phases name = some (.finite start, .finite stop)) :
    ∃ q, value = .finite q ∧ start ≤ q ∧ q ≤ stop := by
  induction h generalizing before with
  | done => cases before <;> cases hevs
  | other hnone _ ih =>
      cases before with
      | nil =>
          cases hevs
          rw [hnone] at hvalue
          cases hvalue
      | cons first before =>
          cases hevs
          rw [latestPhase_cons, Option.or_assoc] at hname
          exact ih rfl hname
  | fraction q hq _ _ hrange _ ih =>
      cases before with
      | nil =>
          cases hevs
          rw [hq] at hvalue
          cases hvalue
          exact ⟨q, rfl, hrange name start stop hname hphase⟩
      | cons first before =>
          cases hevs
          rw [latestPhase_cons, entered_of_fraction hq, Option.or_none] at hname
          exact ih rfl hname

end Climbs

/-! What an interpreter does with an ordered pipeline. -/

namespace RuleInterpreter

variable {interp : RuleInterpreter} {call : LineCall} {latest : Option Mark} {low : ℚ}

/-- Where the progress is between two lines: at the share that the latest mark stands
for, in the range of the phase. -/
inductive Stands (interp : RuleInterpreter) : Option Mark → ℚ → Prop where
  | outside (hphase : interp.currentPhase = none) : Stands interp none 0
  | inside {name : String} {start stop : ℚ} (mark : Mark)
      (hphase : interp.currentPhase = some name)
      (hrange : interp.phases name = some (.finite start, .finite stop))
      (hzero : 0 ≤ start) (hle : start ≤ stop) (hone : stop ≤ 1) :
      Stands interp (some mark) (start + mark.share * (stop - start))

/-- Only the phase and the ranges decide where the progress is. -/
theorem Stands.congr (h : interp.Stands latest low) {next : RuleInterpreter}
    (hcurrent : next.currentPhase = interp.currentPhase)
    (hphases : next.phases = interp.phases) : next.Stands latest low := by
  cases h with
  | outside hphase => exact .outside (hcurrent.trans hphase)
  | inside mark hphase hrange hzero hle hone =>
      exact .inside mark (hcurrent.trans hphase) (hphases ▸ hrange) hzero hle hone

/-- The place of a share in a range. -/
theorem place_bounds {share start stop : ℚ} (hshare : 0 ≤ share ∧ share ≤ 1)
    (hle : start ≤ stop) :
    start ≤ start + share * (stop - start) ∧ start + share * (stop - start) ≤ stop := by
  obtain ⟨hzero, hone⟩ := hshare
  constructor <;> nlinarith

/-- Leaving the phase takes the progress to its end. -/
theorem Stands.exitCurrent (h : interp.Stands latest low) :
    ∃ high, Climbs interp.phases interp.currentPhase low interp.exitCurrent
        interp.currentPhase high ∧
      (∀ name start stop, interp.currentPhase = some name →
        interp.phases name = some (.finite start, .finite stop) →
        high = stop ∧ fractionsIn interp.exitCurrent = [.finite stop]) ∧
      (interp.currentPhase = none → high = 0) := by
  cases h with
  | outside hphase =>
      rw [RuleInterpreter.exitCurrent, hphase]
      exact ⟨0, .done none 0, (fun _ _ _ h => by cases h), fun _ => rfl⟩
  | @inside name start stop mark hphase hrange hzero hle hone =>
      have hexit : interp.exitCurrent = [.exitPhase, .progress (.fraction (.finite stop))] := by
        simp only [RuleInterpreter.exitCurrent, hphase, hrange]
      rw [hexit, hphase]
      refine ⟨stop, .other rfl ?_, fun other start' stop' hother hrange' => ?_,
        fun h => by cases h⟩
      · exact .inside hrange hzero hone (place_bounds mark.share_bounds hle).2 ⟨hle, le_refl _⟩
      · cases hother
        cases hrange.symm.trans hrange'
        refine ⟨rfl, ?_⟩
        change [clamp01 (.finite stop)] = _
        rw [clamp01_finite (le_trans hzero hle) hone]

/-- Entering a phase takes the progress to its start. -/
theorem Stands.enter (h : interp.Stands latest low) {name : String}
    (hranged : Ranged interp.phases name)
    (hfollows : ∀ before, interp.currentPhase = some before → Follows interp.phases before name)
    (caps : Captures) (labelTemplate : String) :
    ∃ high, Climbs interp.phases interp.currentPhase low
        (interp.apply caps (.enterPhase name labelTemplate)).1 (some name) high ∧
      (interp.apply caps (.enterPhase name labelTemplate)).2.Stands (some (.entered name))
        high := by
  obtain ⟨start, stop, hrange, hzero, hle, hone⟩ := hranged
  obtain ⟨left, hexit, hleft, hfirst⟩ := h.exitCurrent
  have hrises : left ≤ start := by
    cases h with
    | outside hphase => exact le_of_eq_of_le (hfirst hphase) hzero
    | inside mark hphase hbefore =>
        rw [(hleft _ _ _ hphase hbefore).1]
        exact hfollows _ hphase _ _ _ _ hbefore hrange
  have happly : interp.apply caps (.enterPhase name labelTemplate) =
      (interp.exitCurrent ++ [.enterPhase name (some (render labelTemplate caps)),
        .progress (.fraction (.finite start))], { interp with currentPhase := some name }) := by
    simp only [apply, hrange]
  rw [happly]
  refine ⟨start, hexit.append (.other rfl ?_), ?_⟩
  · exact .inside hrange hzero hone hrises ⟨le_refl _, hle⟩
  · have hinside : Stands { interp with currentPhase := some name } (some (.entered name))
        (start + (Mark.entered name).share * (stop - start)) :=
      .inside (.entered name) rfl hrange hzero hle hone
    rw [show start + (Mark.entered name).share * (stop - start) = start by
      simp only [Mark.share, zero_mul, add_zero]] at hinside
    exact hinside

/-- The fraction that stands for a ratio. -/
def placed (interp : RuleInterpreter) (ratio : F64) : F32 :=
  let share := ratio.clampUnit.toF32By .exact
  match interp.currentPhase.bind interp.phases with
  | some (start, stop) => start.addBy .exact (share.mulBy .exact (stop.subBy .exact start))
  | none => share

/-- A report shows the place of its ratio, and nothing without one. -/
theorem byteEventsBy_exact (caps : Captures) :
    interp.byteEventsBy .exact caps =
      ((reportedRatio caps).map
        (fun ratio => .progress (.fraction (interp.placed ratio)))).toList := by
  unfold byteEventsBy reportedRatio
  cases (caps 1).bind (F64.parseBy .exact) with
  | none => rfl
  | some done =>
      cases (caps 2).bind (F64.parseBy .exact) with
      | none => rfl
      | some total =>
          simp only
          by_cases hpos : total.pos = true
          · rw [if_pos hpos, if_pos hpos]
            rfl
          · rw [if_neg hpos, if_neg hpos]
            rfl

theorem placed_eq {ratio : F64} {name : String} {start stop : ℚ}
    (hphase : interp.currentPhase = some name)
    (hrange : interp.phases name = some (.finite start, .finite stop)) (hnumber : ratio ≠ .nan) :
    interp.placed ratio = .finite (start + ratio.share * (stop - start)) := by
  have hshare := F64.clampUnit_eq hnumber
  simp only [placed, hphase, Option.bind_some, hrange, hshare]
  change F32.finite (start + ratio.share * (stop + -start)) = _
  rw [sub_eq_add_neg]

/-- A report takes the progress to the place of its ratio. -/
theorem Stands.report (h : interp.Stands latest low) (hinside : interp.currentPhase ≠ none)
    {caps : Captures} {ratio : F64} (hratio : reportedRatio caps = some ratio)
    (hnumber : ratio ≠ .nan)
    (hrises : ∀ mark, latest = some mark → mark.Rises (.reported ratio)) :
    ∃ high, Climbs interp.phases interp.currentPhase low (interp.byteEventsBy .exact caps)
        interp.currentPhase high ∧ interp.Stands (some (.reported ratio)) high := by
  cases h with
  | outside hphase => exact absurd hphase hinside
  | @inside name start stop mark hphase hrange hzero hle hone =>
      have hplace := place_bounds ratio.share_bounds hle
      refine ⟨start + ratio.share * (stop - start), ?_,
        .inside (.reported ratio) hphase hrange hzero hle hone⟩
      have hevents : interp.byteEventsBy .exact caps =
          [.progress (.fraction (.finite (start + ratio.share * (stop - start))))] := by
        rw [byteEventsBy_exact, hratio, ← placed_eq hphase hrange hnumber]
        rfl
      rw [hevents, hphase]
      apply Climbs.inside hrange hzero hone _ hplace
      have hshare := (hrises mark rfl).share_le
      nlinarith

/-- A report without a ratio shows nothing. -/
theorem byteEventsBy_none {caps : Captures} (hratio : reportedRatio caps = none) :
    interp.byteEventsBy .exact caps = [] := by
  rw [byteEventsBy_exact, hratio]
  rfl

/-- One line of an ordered pipeline. -/
theorem Stands.line (h : interp.Stands latest low)
    (hnotes : interp.inNotes = true → interp.notes.isSome = true) {marks : List Mark}
    (horder : Orderly interp.phases interp.currentPhase latest
      ((interp.markOf call.line).toList ++ marks)) :
    ∃ next high, Climbs interp.phases interp.currentPhase low (interp.onLineBy .exact call)
        (interp.onLine call.line call.now).2.currentPhase high ∧
      (interp.onLine call.line call.now).2.phases = interp.phases ∧
      (interp.onLine call.line call.now).2.Stands next high ∧
      Orderly interp.phases (interp.onLine call.line call.now).2.currentPhase next marks := by
  have hmatches : interp.Matches call (interp.matched call.line)
      (interp.onLine call.line call.now) := onLine_matches hnotes
  unfold markOf at horder
  unfold onLineBy
  generalize interp.onLine call.line call.now = answered at hmatches ⊢
  generalize interp.matched call.line = found at hmatches horder ⊢
  cases hmatches with
  | quiet evs next hfractions hphase hcurrent hphases =>
      refine ⟨latest, low, ?_, hphases, h.congr hcurrent hphases, ?_⟩
      · rw [hcurrent]
        exact .quiet hfractions hphase
      · rw [hcurrent]
        exact horder
  | table action caps =>
      cases action with
      | enterPhase name labelTemplate =>
          obtain ⟨hranged, hfollows, hrest⟩ := horder.enter
          have hheard : (interp.heard call.line).Stands latest low := h.congr rfl rfl
          obtain ⟨high, hclimbs, hstands⟩ := hheard.enter hranged hfollows caps labelTemplate
          exact ⟨some (.entered name), high, hclimbs, rfl, hstands, hrest⟩
      | byteProgressMb =>
          rw [apply_byteProgressMb]
          cases hratio : reportedRatio caps with
          | none =>
              simp only
              rw [byteEventsBy_none hratio]
              simp only [hratio] at horder
              exact ⟨latest, low, .done _ _, rfl, h.congr rfl rfl, horder⟩
          | some ratio =>
              simp only [hratio] at horder
              obtain ⟨hinside, hnumber, hrises, hrest⟩ := horder.report
              obtain ⟨high, hclimbs, hstands⟩ := h.report hinside hratio hnumber hrises
              exact ⟨some (.reported ratio), high, hclimbs, rfl, hstands.congr rfl rfl, hrest⟩
      | _ => exact ⟨latest, low, .quiet rfl rfl, rfl, h.congr rfl rfl, horder⟩

/-- All lines of an ordered pipeline. -/
theorem Stands.lines {body : Option (List LineCall)} (h : interp.Stands latest low)
    (hpaired : interp.Paired body) (calls : List LineCall)
    (horder : Orderly interp.phases interp.currentPhase latest (interp.marks calls)) :
    ∃ next high, Climbs interp.phases interp.currentPhase low (interp.onLinesBy .exact calls)
        (interp.onLines calls).2.currentPhase high ∧
      (interp.onLines calls).2.phases = interp.phases ∧
      (interp.onLines calls).2.Stands next high := by
  induction calls generalizing interp body latest low with
  | nil => exact ⟨latest, low, .done _ _, rfl, h⟩
  | cons call calls ih =>
      obtain ⟨middle, between, hclimbs, hphases, hstands, hrest⟩ := h.line hpaired.notes horder
      obtain ⟨after, -, hafter⟩ := hpaired.onLine call
      rw [← hphases] at hrest
      obtain ⟨next, high, hclimbs', hphases', hstands'⟩ := ih hstands hafter hrest
      rw [hphases] at hclimbs' hphases'
      exact ⟨next, high, hclimbs.append hclimbs', hphases', hstands'⟩

/-- The whole run of an ordered pipeline. -/
theorem Stands.run {body : Option (List LineCall)} (h : interp.Stands latest low)
    (hpaired : interp.Paired body) (calls : List LineCall) (exit : ExitCode) (now : SystemTime)
    (horder : Orderly interp.phases interp.currentPhase latest (interp.marks calls)) :
    ∃ last high, Climbs interp.phases interp.currentPhase low
        (interp.runEventsBy .exact calls exit now) last high ∧
      ∀ name start stop, last = some name →
        interp.phases name = some (.finite start, .finite stop) →
        (fractionsIn (interp.runEventsBy .exact calls exit now)).getLast? =
          some (.finite stop) := by
  obtain ⟨next, between, hclimbs, hphases, hstands⟩ := h.lines hpaired calls horder
  obtain ⟨high, hexit, hlast, -⟩ := hstands.exitCurrent
  obtain ⟨hflushed, hphase⟩ := @flushNotes_quiet (interp.onLines calls).2 now
  obtain ⟨hfailure, hentered⟩ := @synthesized_quiet (interp.onLines calls).2 exit
  rw [hphases] at hexit hlast
  unfold runEventsBy
  rw [onExit_events, List.append_assoc]
  refine ⟨_, high, hclimbs.append ((Climbs.quiet hflushed hphase).append (hexit.append
    (Climbs.quiet hfailure hentered))), fun name start stop hname hrange => ?_⟩
  have hleft := (hlast name start stop hname hrange).2
  unfold fractionsIn at hflushed hfailure hleft ⊢
  rw [List.filterMap_append, List.filterMap_append, List.filterMap_append, hflushed, hfailure,
    hleft, List.nil_append, List.append_nil, List.getLast?_concat]

/-- The progress of an ordered pipeline never falls, stays in the range of the phase,
and arrives at the end of the last one. -/
theorem progress_never_falls (rules : List Rule) (phases : String → Option (F32 × F32))
    (notes : Option NotesConfig) (fallback : Option FallbackPolicy) (calls : List LineCall)
    (exit : ExitCode) (now : SystemTime)
    (horder : Orderly phases none none ((configured rules phases notes fallback).marks calls)) :
    let evs := (configured rules phases notes fallback).runEventsBy .exact calls exit now
    (∃ values : List ℚ, fractionsIn evs = values.map .finite ∧ values.Pairwise (· ≤ ·) ∧
      ∀ value ∈ values, 0 ≤ value ∧ value ≤ 1) ∧
    (∀ before ev after value name start stop, evs = before ++ ev :: after →
      ev.fraction? = some value → latestPhase before = some name →
      phases name = some (.finite start, .finite stop) →
      ∃ q, value = .finite q ∧ start ≤ q ∧ q ≤ stop) ∧
    ∀ name start stop, latestPhase evs = some name →
      phases name = some (.finite start, .finite stop) →
      (fractionsIn evs).getLast? = some (.finite stop) := by
  intro evs
  have hstands : (configured rules phases notes fallback).Stands none 0 := .outside rfl
  obtain ⟨last, high, hclimbs, hlast⟩ :=
    hstands.run (configured_paired rules phases notes fallback) calls exit now horder
  obtain ⟨values, hvalues, hchain, hunit⟩ := hclimbs.chain
  have hrises := List.pairwise_cons.mp hchain.pairwise
  have hphase := hclimbs.last_eq
  rw [show (configured rules phases notes fallback).currentPhase = none from rfl,
    Option.or_none] at hphase
  refine ⟨⟨values, hvalues, hrises.2, fun value hvalue => ⟨hrises.1 value hvalue,
    hunit value hvalue⟩⟩, ?_, ?_⟩
  · intro before ev after value name start stop hevs hvalue hname hrange
    apply hclimbs.within hevs hvalue _ hrange
    rw [hname]
    rfl
  · intro name start stop hname hrange
    exact hlast name start stop (hphase.trans hname) hrange

/-- A rule for one text, with what it captures there. -/
def ruleFor (text first second : String) (action : RuleAction) : Rule where
  regex := ⟨fun other =>
    if other = text then some (fun n => if n = 1 then some first else some second) else none⟩
  action := action

/-- A pipeline of two phases, with two reports in the second. -/
def pipelineRules : List Rule :=
  [ruleFor "resolve" "" "" (.enterPhase "Resolving" ""),
    ruleFor "download" "" "" (.enterPhase "Downloading" ""),
    ruleFor "1.5 of 6 MB" "1.5" "6" .byteProgressMb,
    ruleFor "4.5 of 6 MB" "4.5" "6" .byteProgressMb]

def pipelinePhases (name : String) : Option (F32 × F32) :=
  if name = "Resolving" then some (.finite 0, .finite (1 / 10))
  else if name = "Downloading" then some (.finite (1 / 10), .finite 1)
  else none

def pipelineCalls : List LineCall :=
  [.of .stdout "resolve", .of .stdout "download", .of .stdout "1.5 of 6 MB",
    .of .stdout "4.5 of 6 MB"]

theorem pipeline_marks : (configured pipelineRules pipelinePhases none none).marks pipelineCalls =
    [.entered "Resolving", .entered "Downloading", .reported (.finite (1 / 4)),
      .reported (.finite (3 / 4))] := by
  decide +kernel

theorem pipeline_orderly : Orderly pipelinePhases none none
    ((configured pipelineRules pipelinePhases none none).marks pipelineCalls) := by
  rw [pipeline_marks]
  constructor
  · intro name hname
    simp only [List.mem_cons, Mark.entered.injEq, reduceCtorEq, List.not_mem_nil, or_false] at hname
    rcases hname with rfl | rfl
    · exact ⟨0, 1 / 10, rfl, by norm_num, by norm_num, by norm_num⟩
    · exact ⟨1 / 10, 1, rfl, by norm_num, by norm_num, by norm_num⟩
  · refine List.isChain_cons_cons.mpr ⟨?_, .singleton _⟩
    intro start stop start' stop' hfirst hsecond
    cases hfirst
    cases hsecond
    exact le_refl _
  · intro _ before ratio after hmarks
    cases before with
    | nil => cases hmarks
    | cons mark before =>
        obtain ⟨hmark, -⟩ := List.cons_eq_cons.mp hmarks
        exact ⟨"Resolving", hmark ▸ List.mem_cons_self⟩
  · intro ratio hratio
    simp only [List.mem_cons, Mark.reported.injEq, reduceCtorEq, List.not_mem_nil, or_false,
      false_or] at hratio
    rcases hratio with rfl | rfl <;> exact fun h => by cases h
  · have hrises : (1 / 4 : ℚ) ≤ 3 / 4 := by norm_num
    refine .cons_cons trivial (.cons_cons trivial (.cons_cons ?_ (.singleton _)))
    exact decide_eq_true hrises

/-- It arrives at the end of its second phase. -/
theorem progress_never_falls_pipeline :
    (fractionsIn ((configured pipelineRules pipelinePhases none none).runEventsBy .exact
      pipelineCalls ⟨some 0, none⟩ 0)).getLast? = some (.finite 1) :=
  (progress_never_falls pipelineRules pipelinePhases none none pipelineCalls ⟨some 0, none⟩ 0
    pipeline_orderly).2.2 "Downloading" (1 / 10) 1 (by decide +kernel) rfl

end RuleInterpreter

end Execra
