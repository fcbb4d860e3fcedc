import Execra.Interpret.Run
import Mathlib.Algebra.Order.BigOperators.Group.List

/-!
The findings of the notes. The documentation has the interpreter skip a separator
that follows the trigger immediately; `on_line` skips every separator inside of
notes. So a finding holds all lines of its notes if and only if they have no
separator further down.
-/

namespace Execra

/-- The texts of notes that are collected whole, but for a separator right after the
trigger. -/
def wholeNotes : List LineCall → List String
  | [] => []
  | first :: rest =>
      (if first.line.isSeparator then rest else first :: rest).map (fun call => call.line.text)

/-- The finding of some lines, with no reading of the clock; none of no lines. -/
def NotesConfig.findingOf (notes : NotesConfig) (lines : List String) : Option Finding :=
  if lines = [] then none else some (.info notes.code ("\n".intercalate lines) 0)

/-- The findings among some events, without the readings of the clock. -/
def findingsIn (evs : List InterpreterEvent) : List Finding :=
  evs.filterMap (fun
    | .finding f => some { f with time := 0 }
    | _ => none)

namespace RuleInterpreter

/-- The findings of a run are those of its notes, one for each in order, and each
holds its notes whole. -/
def CollectsNotes (interp : RuleInterpreter) (notes : NotesConfig) (calls : List LineCall)
    (exit : ExitCode) (now : SystemTime) : Prop :=
  findingsIn (interp.runEvents calls exit now) =
    (notesBodies (some notes) calls).filterMap (fun body => notes.findingOf (wholeNotes body))

/-- Every separator of the notes follows the trigger immediately. -/
def SeparatorsLead (notes : NotesConfig) (calls : List LineCall) : Prop :=
  ∀ body ∈ notesBodies (some notes) calls, ∀ call ∈ body.tail, call.line.isSeparator = false

variable {interp : RuleInterpreter} {notes : NotesConfig}

/-! What the findings hold. -/

theorem findingsIn_append (evs more : List InterpreterEvent) :
    findingsIn (evs ++ more) = findingsIn evs ++ findingsIn more := List.filterMap_append

theorem findingsIn_eq_nil {evs : List InterpreterEvent}
    (h : evs.any InterpreterEvent.isFinding = false) : findingsIn evs = [] := by
  refine List.filterMap_eq_nil_iff.mpr (fun ev hev => ?_)
  have hkind := List.any_eq_false.mp h ev hev
  cases ev with
  | finding f => exact absurd rfl hkind
  | _ => rfl

theorem findingsIn_flushNotes (hconfig : interp.notes = some notes) (now : SystemTime) :
    findingsIn (interp.flushNotes now).1 = (notes.findingOf interp.notesBuf).toList := by
  unfold flushNotes NotesConfig.findingOf
  rw [hconfig]
  split <;> rfl

theorem findingsIn_onExit (hconfig : interp.notes = some notes) (exit : ExitCode)
    (now : SystemTime) :
    findingsIn (interp.onExit exit now).1 = (notes.findingOf interp.notesBuf).toList := by
  have hfallback : findingsIn ((interp.synthesized exit).toList.map
      (fun error => .knownError error.1 error.2)) = [] := by
    cases interp.synthesized exit <;> rfl
  rw [onExit_events, findingsIn_append, findingsIn_append, findingsIn_flushNotes hconfig,
    findingsIn_eq_nil exitCurrent_kinds.1, hfallback, List.append_nil, List.append_nil]

/-- The findings of a run, from a place inside of notes or outside. -/
theorem Paired.findings {body : Option (List LineCall)} (h : interp.Paired body)
    (hconfig : interp.notes = some notes) (calls : List LineCall) (exit : ExitCode)
    (now : SystemTime) :
    findingsIn (interp.runEvents calls exit now) =
      (Blocks.bodiesFrom (opensNotes (some notes)) endsNotes body calls).filterMap
        (fun body => notes.findingOf (keptOf body)) := by
  induction calls generalizing interp body with
  | nil =>
      change findingsIn (interp.onExit exit now).1 = _
      rw [findingsIn_onExit hconfig, h.buffer]
      cases body with
      | none => rfl
      | some body =>
          rw [Blocks.bodiesFrom, List.filterMap_cons, List.filterMap_nil]
          cases hfinding : notes.findingOf (keptOf body) <;> simp [hfinding]
  | cons call calls ih =>
      obtain ⟨next, hreads, hnext⟩ := h.onLine call
      have hrest := ih hnext (hreads.notes.trans hconfig)
      have hsplit : findingsIn (interp.runEvents (call :: calls) exit now) =
          findingsIn (interp.onLine call.line call.now).1 ++
            findingsIn ((interp.onLine call.line call.now).2.runEvents calls exit now) := by
        rw [← findingsIn_append]
        simp [runEvents, RuleInterpreter.onLines]
      rw [hsplit, hrest]
      generalize interp.onLine call.line call.now = answered at hreads ⊢
      cases hreads with
      | classified hopens =>
          rw [hconfig] at hopens
          rw [findingsIn_eq_nil (classify_findings call.line)]
          simp [Blocks.bodiesFrom, hopens]
      | opened hopens =>
          rw [hconfig] at hopens
          simp [Blocks.bodiesFrom, hopens, findingsIn]
      | collected body next hends =>
          simp [Blocks.bodiesFrom, hends, findingsIn]
      | flushed body hends =>
          rw [findingsIn_flushNotes hconfig, h.buffer]
          simp only [Blocks.bodiesFrom, hends, if_true, List.filterMap_cons, Option.getD_some]
          cases notes.findingOf (keptOf body) <;> rfl

/-! Whether anything is missing. -/

/-- The characters of some lines, each with the end of it. -/
def weight (lines : List String) : Nat := (lines.map (fun text => text.length + 1)).sum

theorem length_intercalate {lines : List String} (h : lines ≠ []) :
    ("\n".intercalate lines).length + 1 = weight lines := by
  induction lines with
  | nil => exact absurd rfl h
  | cons text rest ih =>
      cases rest with
      | nil => simp [weight]
      | cons next rest =>
          have htail := ih (by simp)
          rw [String.intercalate_cons_cons, String.length_append, String.length_append]
          simp only [weight, List.map_cons, List.sum_cons] at htail ⊢
          have hfeed : "\n".length = 1 := by decide
          omega

/-- All characters of the findings, each with the end of it. -/
theorem sum_findings (notes : NotesConfig) (f : List LineCall → List String)
    (bodies : List (List LineCall)) :
    ((bodies.filterMap (fun body => notes.findingOf (f body))).map
        (fun finding => finding.message.length + 1)).sum =
      (bodies.map (fun body => weight (f body))).sum := by
  induction bodies with
  | nil => rfl
  | cons body bodies ih =>
      rw [List.filterMap_cons]
      by_cases hempty : f body = []
      · simp only [NotesConfig.findingOf, hempty, if_true, List.map_cons, List.sum_cons]
        rw [← ih]
        simp [weight, NotesConfig.findingOf]
      · have hlength := length_intercalate hempty
        simp only [NotesConfig.findingOf, hempty, if_false, List.map_cons, List.sum_cons, ← ih,
          Finding.info]
        rw [hlength]

theorem eq_of_sum_eq {α : Type*} {xs : List α} {f g : α → Nat} (hle : ∀ x ∈ xs, f x ≤ g x)
    (hsum : (xs.map f).sum = (xs.map g).sum) : ∀ x ∈ xs, f x = g x := by
  induction xs with
  | nil => exact List.forall_mem_nil _
  | cons x xs ih =>
      have hhead := hle x List.mem_cons_self
      have htail : (xs.map f).sum ≤ (xs.map g).sum :=
        List.sum_le_sum (fun y hy => hle y (List.mem_cons_of_mem x hy))
      simp only [List.map_cons, List.sum_cons] at hsum
      intro y hy
      rcases List.mem_cons.mp hy with rfl | hy
      · omega
      · exact ih (fun z hz => hle z (List.mem_cons_of_mem x hz)) (by omega) y hy

theorem keptOf_of_none {rest : List LineCall}
    (h : ∀ call ∈ rest, call.line.isSeparator = false) :
    keptOf rest = rest.map (fun call => call.line.text) := by
  unfold keptOf
  rw [List.filter_eq_self.mpr]
  intro call hcall
  rw [h call hcall]
  rfl

/-- Without separators further down, all that is left out is one right after the
trigger. -/
theorem keptOf_eq_wholeNotes {body : List LineCall}
    (h : ∀ call ∈ body.tail, call.line.isSeparator = false) : keptOf body = wholeNotes body := by
  cases body with
  | nil => rfl
  | cons first rest =>
      have hrest : keptOf rest = rest.map (fun call => call.line.text) := keptOf_of_none h
      cases hfirst : first.line.isSeparator with
      | true =>
          simp only [wholeNotes, hfirst, if_true]
          rw [← hrest, keptOf_separator hfirst]
      | false =>
          simp only [wholeNotes, hfirst, Bool.false_eq_true, if_false, List.map_cons]
          rw [← hrest, keptOf_line hfirst]

theorem weight_rest (rest : List LineCall) :
    weight (keptOf rest) ≤ weight (rest.map (fun call => call.line.text)) ∧
      (weight (keptOf rest) = weight (rest.map (fun call => call.line.text)) →
        ∀ call ∈ rest, call.line.isSeparator = false) := by
  induction rest with
  | nil => exact ⟨le_refl _, fun _ => List.forall_mem_nil _⟩
  | cons call rest ih =>
      obtain ⟨hle, heq⟩ := ih
      cases hsep : call.line.isSeparator with
      | true =>
          rw [keptOf_separator hsep]
          simp only [weight, List.map_cons, List.sum_cons] at hle ⊢
          exact ⟨by omega, fun h => absurd h (by omega)⟩
      | false =>
          rw [keptOf_line hsep]
          simp only [weight, List.map_cons, List.sum_cons] at hle heq ⊢
          refine ⟨by omega, fun h => ?_⟩
          exact List.forall_mem_cons.mpr ⟨hsep, heq (by omega)⟩

/-- Something is missing from what is kept exactly if it weighs less. -/
theorem weight_keptOf (body : List LineCall) :
    weight (keptOf body) ≤ weight (wholeNotes body) ∧
      (weight (keptOf body) = weight (wholeNotes body) →
        ∀ call ∈ body.tail, call.line.isSeparator = false) := by
  cases body with
  | nil => exact ⟨le_refl _, fun _ => List.forall_mem_nil _⟩
  | cons first rest =>
      cases hfirst : first.line.isSeparator with
      | true =>
          rw [keptOf_separator hfirst]
          simp only [wholeNotes, hfirst, if_true]
          exact weight_rest rest
      | false =>
          obtain ⟨hle, heq⟩ := weight_rest (first :: rest)
          simp only [wholeNotes, hfirst, Bool.false_eq_true, if_false]
          exact ⟨hle, fun h call hcall => heq h call (List.mem_cons_of_mem first hcall)⟩

/-- The findings of a run hold its notes whole if and only if no separator is further
down in them than right after the trigger. -/
theorem notes_collected_iff (rules : List Rule) (phases : String → Option (F32 × F32))
    (notes : NotesConfig) (fallback : Option FallbackPolicy) (calls : List LineCall)
    (exit : ExitCode) (now : SystemTime) :
    CollectsNotes (configured rules phases (some notes) fallback) notes calls exit now ↔
      SeparatorsLead notes calls := by
  have hpaired := configured_paired rules phases (some notes) fallback
  have hfindings : findingsIn ((configured rules phases (some notes) fallback).runEvents calls
      exit now) = (notesBodies (some notes) calls).filterMap
        (fun body => notes.findingOf (keptOf body)) := hpaired.findings rfl calls exit now
  unfold CollectsNotes
  rw [hfindings]
  constructor
  · intro hsame body hbody
    -- Equal findings weigh the same, and what is kept of any notes weighs no more.
    have hsums := congrArg (fun found : List Finding =>
      (found.map (fun finding => finding.message.length + 1)).sum) hsame
    simp only [sum_findings] at hsums
    have hweight := eq_of_sum_eq (fun body _ => (weight_keptOf body).1) hsums body hbody
    exact (weight_keptOf body).2 hweight
  · intro hlead
    refine List.filterMap_congr (fun body hbody => ?_)
    rw [keptOf_eq_wholeNotes (hlead body hbody)]

/-- A separator between two lines of the notes is not in the finding. -/
theorem notes_lose_separator :
    ¬ CollectsNotes (configured [] (fun _ => none) (some ⟨"Notes", "x.notes"⟩) none)
      ⟨"Notes", "x.notes"⟩
      [.of .stdout "Notes", .of .stdout "a", .of .stdout "---", .of .stdout "b", .of .stdout ""]
      ⟨some 0, none⟩ 0 := by
  unfold CollectsNotes
  decide

end RuleInterpreter

end Execra
