import Execra.Model.Event
import Execra.Model.Float

/-!
The table-driven interpreter of `interpret.rs`. A compiled regex is what it
captures: from a text that matches, the groups by their number. A method that
takes `&mut self` returns the events and the interpreter afterwards; the clock
reading of a finding is a parameter.
-/

namespace Execra

/-- `regex::Captures`: group 0 is the whole match. -/
abbrev Captures := Nat → Option String

/-- `regex::Regex`. -/
structure Regex where
  captures : String → Option Captures

inductive RuleAction where
  | benign
  | progress (label : String)
  | enterPhase (name labelTemplate : String)
  | warning (code template : String)
  | knownError (code template : String)
  | summary (template : String)
  | byteProgressMb

structure Rule where
  regex : Regex
  action : RuleAction

/-- The text of a placeholder: nothing for a group that is missing, or whose
number does not fit a `usize`. -/
def captureText (caps : Captures) (digits : List Char) : List Char :=
  let idx := F64.digitsValue digits
  if idx < 2 ^ 64 then ((caps idx).getD "").toList else []

/-- The loop of `render` over the template; the digits after a dollar sign are
collected in `digits`. -/
def renderFrom (caps : Captures) : Option (List Char) → List Char → List Char
  | none, [] => []
  | none, c :: rest => if c = '$' then renderFrom caps (some []) rest
      else c :: renderFrom caps none rest
  | some [], [] => ['$']
  | some (d :: digits), [] => captureText caps (d :: digits)
  | some digits, c :: rest =>
      if c.isDigit then renderFrom caps (some (digits ++ [c])) rest
      else
        (if digits = [] then ['$'] else captureText caps digits) ++
          if c = '$' then renderFrom caps (some []) rest else c :: renderFrom caps none rest

def render (template : String) (caps : Captures) : String :=
  String.ofList (renderFrom caps none template.toList)

/-- `char::is_whitespace`: the characters with the property White_Space. -/
def isWhitespace (c : Char) : Bool :=
  let n := c.toNat
  (9 ≤ n && n ≤ 13) || n = 0x20 || n = 0x85 || n = 0xA0 || n = 0x1680 ||
    (0x2000 ≤ n && n ≤ 0x200A) || n = 0x2028 || n = 0x2029 || n = 0x202F || n = 0x205F ||
    n = 0x3000

/-- `str::trim_start`. -/
def trimStart (text : List Char) : List Char := text.dropWhile isWhitespace

/-- `str::trim`. -/
def trim (text : List Char) : List Char := (trimStart (trimStart text).reverse).reverse

/-- `text.to_ascii_lowercase().contains("failed")`. -/
def mentionsFailed (text : String) : Bool :=
  (text.toList.map Char.toLower).tails.any ("failed".toList.isPrefixOf ·)

structure NotesConfig where
  trigger : String
  code : String

structure FallbackPolicy where
  code : String := "command_error"
  fromFailedLine : Bool := true
  fromStderr : Bool := true

/-- `Finding::info`. -/
def Finding.info (code message : String) (time : SystemTime) : Finding :=
  { severity := .info, code, message, time }

structure RuleInterpreter where
  rules : List Rule
  phases : String → Option (F32 × F32)
  notes : Option NotesConfig := none
  fallback : Option FallbackPolicy := none
  inNotes : Bool := false
  notesBuf : List String := []
  currentPhase : Option String := none
  emittedKnownError : Bool := false
  fallbackError : Option String := none
  lastStderr : Option String := none

namespace RuleInterpreter

def flushNotes (self : RuleInterpreter) (time : SystemTime) :
    List InterpreterEvent × RuleInterpreter :=
  if self.notesBuf = [] then ([], { self with inNotes := false })
  else
    let text := "\n".intercalate self.notesBuf
    let code := (self.notes.map NotesConfig.code).getD "notes"
    ([.finding (.info code text time)], { self with inNotes := false, notesBuf := [] })

/-- Closes the current phase, and advances the progress to its end. -/
def exitCurrent (self : RuleInterpreter) : List InterpreterEvent :=
  match self.currentPhase with
  | some prev => .exitPhase ::
      match self.phases prev with
      | some (_, stop) => [.progress (.fraction stop)]
      | none => []
  | none => []

/-- The fraction of a `ByteProgressMb` rule. -/
def byteFraction (self : RuleInterpreter) (d t : F64) : F32 :=
  let ratio := (d.divPos t).clampUnit.toF32
  match self.currentPhase.bind self.phases with
  | some (start, stop) => start.add (ratio.mul (stop.sub start))
  | none => ratio

/-- The events of the rule that matched. -/
def apply (self : RuleInterpreter) (caps : Captures) :
    RuleAction → List InterpreterEvent × RuleInterpreter
  | .benign => ([], self)
  | .progress label => ([.progress (.indeterminate (some label))], self)
  | .enterPhase name labelTemplate =>
      let start :=
        match self.phases name with
        | some (start, _) => [.progress (.fraction start)]
        | none => []
      (self.exitCurrent ++ .enterPhase name (some (render labelTemplate caps)) :: start,
        { self with currentPhase := some name })
  | .warning code template => ([.warning (some code) (render template caps)], self)
  | .knownError code template =>
      ([.knownError code (render template caps)],
        { self with emittedKnownError := true, fallbackError := none })
  | .summary template => ([.summary (render template caps)], self)
  | .byteProgressMb =>
      match (caps 1).bind F64.parse, (caps 2).bind F64.parse with
      | some d, some t =>
          if t.pos then ([.progress (.fraction (self.byteFraction d t))], self) else ([], self)
      | _, _ => ([], self)

/-- The first rule that matches, and its captures. -/
def firstMatch (text : String) : List Rule → Option (RuleAction × Captures)
  | [] => none
  | rule :: rules =>
      match rule.regex.captures text with
      | some caps => some (rule.action, caps)
      | none => firstMatch text rules

/-- The rule table, and for a line no rule matches what the fallback may need. -/
def dispatch (self : RuleInterpreter) (text : String) : List InterpreterEvent × RuleInterpreter :=
  match firstMatch text self.rules with
  | some (action, caps) => self.apply caps action
  | none =>
      match self.fallback with
      | some fb =>
          if fb.fromFailedLine && self.fallbackError.isNone && mentionsFailed text then
            ([], { self with fallbackError := some text })
          else ([], self)
      | none => ([], self)

/-- The part of `on_line` after the notes block. -/
def classify (self : RuleInterpreter) (line : Line) : List InterpreterEvent × RuleInterpreter :=
  if line.text = "" then ([], self)
  else if line.stream = .stderr then
    { self with lastStderr := some line.text }.dispatch line.text
  else self.dispatch line.text

/-- `Interpreter::on_line`. -/
def onLine (self : RuleInterpreter) (line : Line) (time : SystemTime) :
    List InterpreterEvent × RuleInterpreter :=
  match self.notes with
  | some notes =>
      if self.inNotes then
        if "---".toList.isPrefixOf (trimStart line.text.toList) then ([], self)
        else if trim line.text.toList = [] then self.flushNotes time
        else ([], { self with notesBuf := self.notesBuf ++ [line.text] })
      else if trim line.text.toList = notes.trigger.toList then
        ([], { self with inNotes := true })
      else self.classify line
  | none => self.classify line

/-- The known error `on_exit` makes up for a failure that no rule recognised. -/
def fallbackEvents (self : RuleInterpreter) (exit : ExitCode) :
    List InterpreterEvent × RuleInterpreter :=
  match self.fallback with
  | none => ([], self)
  | some fb =>
      if exit.isSuccess || self.emittedKnownError then ([], self)
      else
        let (message, self) :=
          if fb.fromFailedLine then (self.fallbackError, { self with fallbackError := none })
          else (none, self)
        let (message, self) :=
          if message.isNone && fb.fromStderr then
            (self.lastStderr, { self with lastStderr := none })
          else (message, self)
        match message with
        | some message => ([.knownError fb.code message], self)
        | none => ([], self)

/-- `Interpreter::on_exit`. -/
def onExit (self : RuleInterpreter) (exit : ExitCode) (time : SystemTime) :
    List InterpreterEvent × RuleInterpreter :=
  let flushed := self.flushNotes time
  let failure := { flushed.2 with currentPhase := none }.fallbackEvents exit
  (flushed.1 ++ flushed.2.exitCurrent ++ failure.1, failure.2)

end RuleInterpreter

end Execra
