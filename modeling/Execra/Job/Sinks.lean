import Execra.Job.Ordering

/-!
Where the output of a job goes. `process_line` appends a line to the log file,
or keeps it in memory, and then sends it: the file and the ring are at every
moment those of the lines sent so far and of the line that is about to be sent.
No line holds a line feed, so the file can be read back.
-/

namespace Execra

open Program

/-! The formats. -/

/-- A line of the log file, read back. -/
def parseRawLine (piece : List Char) : Option (Stream × String) :=
  [Stream.stdout, Stream.stderr].findSome? (fun stream =>
    ((rawLine stream "").toList.isPrefixOf? piece).map (fun text => (stream, String.ofList text)))

/-- The lines of a log file, split at the line feeds. -/
def readRaw (content : String) : Option (List (Stream × String)) :=
  (Lines.pieces '\n' content.toList).mapM parseRawLine

/-- The last lines, as many as the ring has room for. -/
def lastLines (lines : List (Stream × String)) : List String :=
  (lines.map (fun line => rawLine line.1 line.2)).drop (lines.length - memoryRawCapacity)

theorem rawLine_toList (stream : Stream) (text : String) :
    (rawLine stream text).toList = (rawLine stream "").toList ++ text.toList := by
  simp [rawLine]

theorem parseRawLine_rawLine (stream : Stream) (text : String) :
    parseRawLine (rawLine stream text).toList = some (stream, text) := by
  have hout : (rawLine .stdout "").toList = ['[', 's', 't', 'd', 'o', 'u', 't', ']', ' '] := by
    decide
  have herr : (rawLine .stderr "").toList = ['[', 's', 't', 'd', 'e', 'r', 'r', ']', ' '] := by
    decide
  rw [rawLine_toList, parseRawLine]
  cases stream <;> simp [hout, herr, List.isPrefixOf?]

theorem rawText_toList (lines : List (Stream × String)) :
    (rawText lines).toList =
      lines.flatMap (fun line => (rawLine line.1 line.2).toList ++ ['\n']) := by
  induction lines using List.reverseRecOn with
  | nil => rfl
  | append_singleton lines line ih =>
      rw [rawText, List.foldl_append, List.flatMap_append, ← ih]
      simp [rawText]

theorem rawLine_lineFeed {stream : Stream} {text : String} (h : '\n' ∉ text.toList) :
    '\n' ∉ (rawLine stream text).toList := by
  rw [rawLine_toList, List.mem_append, not_or]
  exact ⟨by cases stream <;> decide, h⟩

/-- The log file is read back as the lines it was written for. -/
theorem readRaw_rawText {lines : List (Stream × String)}
    (h : ∀ line ∈ lines, '\n' ∉ line.2.toList) : readRaw (rawText lines) = some lines := by
  rw [readRaw, rawText_toList]
  induction lines with
  | nil => rfl
  | cons line lines ih =>
      obtain ⟨hline, hlines⟩ := List.forall_mem_cons.mp h
      rw [List.flatMap_cons, List.append_assoc, List.singleton_append]
      rw [Lines.pieces_terminated _ _ (rawLine_lineFeed hline), List.mapM_cons,
        parseRawLine_rawLine, ih hlines]
      rfl

theorem evict_eq_drop (ring : List String) :
    evict ring = ring.drop (ring.length - memoryRawCapacity) := by
  induction ring with
  | nil => rfl
  | cons line lines ih =>
      unfold evict
      split
      · next hlong =>
          have hone : (line :: lines).length - memoryRawCapacity =
              (lines.length - memoryRawCapacity) + 1 := by
            simp only [List.length_cons] at hlong ⊢
            omega
          rw [hone, List.drop_succ_cons, ih]
      · next hshort =>
          rw [Nat.sub_eq_zero_of_le (Nat.not_lt.mp hshort), List.drop_zero]

/-- The ring holds the last lines. -/
theorem ringOf_eq_lastLines (lines : List (Stream × String)) : ringOf lines = lastLines lines := by
  induction lines using List.reverseRecOn with
  | nil => rfl
  | append_singleton lines line ih =>
      have hkept : lastLines lines ++ [rawLine line.1 line.2] =
          ((lines ++ [line]).map (fun line => rawLine line.1 line.2)).drop
            (lines.length - memoryRawCapacity) := by
        rw [lastLines, List.map_append, List.drop_append_of_le_length (by simp)]
        rfl
      have hring : ringOf (lines ++ [line]) = evict (ringOf lines ++ [rawLine line.1 line.2]) := by
        rw [ringOf, List.foldl_append]
        rfl
      have hdrop : lines.length - memoryRawCapacity +
          ((lines ++ [line]).length - (lines.length - memoryRawCapacity) - memoryRawCapacity) =
          (lines ++ [line]).length - memoryRawCapacity := by
        rw [List.length_append, List.length_singleton]
        omega
      rw [hring, ih, hkept, evict_eq_drop, List.drop_drop, List.length_drop, List.length_map, hdrop,
        lastLines]

/-! The lines. -/

/-- The text of a piece without a line feed has none either. -/
theorem pieceText_lineFeed {bytes : List UInt8} (h : newline ∉ bytes) :
    '\n' ∉ (pieceText bytes).toList := by
  refine Utf8.lineFeed_not_mem_fromUtf8Lossy (fun hmem => h ?_)
  unfold popIfEndsWith at hmem
  split at hmem
  · exact List.dropLast_subset bytes hmem
  · exact hmem

/-- A line that is read holds no line feed. -/
theorem Pipe.Poll.lineFeed {p q : Pipe} {text : String} (h : p.Poll (some (some (.ok text))) q) :
    '\n' ∉ text.toList := by
  cases h with
  | terminated _ hline =>
      apply pieceText_lineFeed
      rw [List.mem_append, not_or]
      exact ⟨p.heldOpen, Lines.not_mem_beforeDelim p.avail⟩
  | unterminated _ hline =>
      apply pieceText_lineFeed
      rw [List.mem_append, not_or]
      exact ⟨p.heldOpen, hline⟩

/-- The select loop delivers no line feeds. -/
theorem Sys.Reachable.lineFeed {cfg : Config} {s : Sys} (hs : Sys.Reachable cfg s) :
    ∀ line ∈ linesIn s.selected, '\n' ∉ line.2.toList := by
  refine hs.invariant (I := fun s => ∀ line ∈ linesIn s.selected, '\n' ∉ line.2.toList)
    (List.forall_mem_nil _) ?_
  intro s t hs _ hclean hmove
  have hselect : ∀ {p : Pipe} {stream : Stream} {result : Option (Except IoError String)},
      p.nextLine.1 = some result →
      ∀ line ∈ linesIn (s.selected ++ [.line stream result]), '\n' ∉ line.2.toList := by
    intro p stream result hready line hline
    rw [linesIn_append, List.mem_append] at hline
    rcases hline with hline | hline
    · exact hclean line hline
    · have hpoll := p.nextLine_poll
      rw [hready] at hpoll
      rcases result with _ | _ | text
      · cases hline
      · cases hline
      · rw [List.mem_singleton.mp hline]
        exact hpoll.lineFeed
  cases hmove with
  | driver h =>
      cases h with
      | op w o k hctl =>
          change ∀ line ∈ linesIn (s.act cfg w o).2.selected, _
          rw [(s.act_leaves cfg w o).selected]
          exact hclean
      | leave | pending => exact hclean
      | stdout v result hctl hended hdone hready => exact hselect hready
      | stderr v result hctl hended hdone hout hready => exact hselect hready
      | exit v outcome =>
          change ∀ line ∈ linesIn (s.selected ++ [.exit (some outcome)]), _
          rw [linesIn_append]
          simpa [linesIn, SelectResult.output?] using hclean
  | wait h =>
      rw [h.channel_cases.1]
      exact hclean
  | world h =>
      cases h with
      | arrive stream | close stream => cases stream <;> exact hclean
      | _ => exact hclean

/-! The sinks. -/

/-- The line an operation is about to send. -/
def Op.unsent : Op → List (Stream × String)
  | .send e => outputsOf [e]
  | _ => []

/-- The line the driver is about to send. It is in the file and in memory. -/
def Ctl.unsent : Ctl → List (Stream × String)
  | .run (.op o _) => o.unsent
  | _ => []

/-- The lines a job has sent, and the one it is about to send. -/
def Sys.lines (s : Sys) : List (Stream × String) := outputsOf s.log ++ s.ctl.unsent

/-- The file and the ring hold the lines that were sent and `unsent`. The ghost
value says whether the driver has tried to open the file. -/
structure Ledger.Holds (cfg : Config) (unsent : List (Stream × String)) (x : Ledger × Bool) :
    Prop where
  file : ∀ content, x.1.rawLog = some content →
    content = rawText (outputsOf x.1.sent ++ unsent)
  kept : x.1.rawLog.isSome → cfg.runtime.persistsRaw = true
  ring : x.1.ring =
    if cfg.runtime.rawOutput = .memoryOnly then ringOf (outputsOf x.1.sent ++ unsent) else []
  delivered : outputsOf x.1.sent ++ unsent <+: linesIn x.1.selected
  opened : cfg.runtime.persistsRaw = true → x.2 = true ∨ outputsOf x.1.sent ++ unsent = []

/-- The file stays open as long as lines come. `unread` are the lines that were
delivered and not processed yet. -/
structure Ledger.Takes (cfg : Config) (unread : List (Stream × String)) (x : Ledger × Bool) :
    Prop where
  holds : Ledger.Holds cfg [] x
  writing : x.1.Writing
  tried : cfg.runtime.persistsRaw = true → x.2 = true
  unread : outputsOf x.1.sent ++ unread = linesIn x.1.selected

private def sinksCourse (cfg : Config) : Course cfg Bool where
  ghost o _ g := match o with
    | .openRawFile => true
    | _ => g
  start := false
  here p x := match p with
    | .op o _ => Ledger.Holds cfg o.unsent x
    | .ret _ => True
  bind _ _ _ _ h := h
  top _ := Ledger.Takes cfg []
  done x := Ledger.Holds cfg [] x

/-- The operations that have nothing to do with output. -/
def Op.isAside : Op → Bool
  | .send e => !e.body.isOutput
  | .writeRaw _ | .pushMemoryRaw _ | .openRawFile | .finalizeRawLog => false
  | _ => true

theorem outputsOf_single_eq_nil {e : Event} : outputsOf [e] = [] ↔ e.body.isOutput = false := by
  rw [outputsOf, List.filterMap_cons]
  cases e.body <;> simp [EventBody.isOutput]

section Held

variable {cfg : Config} {J : Ledger × Bool → Prop} {α : Type} {Q : α → Ledger × Bool → Prop}

/-- Two states that record the same output. -/
structure SameOutput (x y : Ledger × Bool) : Prop where
  outputs : outputsOf y.1.sent = outputsOf x.1.sent
  rawLog : y.1.rawLog = x.1.rawLog
  rawOpen : y.1.rawOpen = x.1.rawOpen
  ring : y.1.ring = x.1.ring
  selected : y.1.selected = x.1.selected
  tried : y.2 = x.2

theorem Ledger.Holds.same {x y : Ledger × Bool} {unsent : List (Stream × String)}
    (h : Ledger.Holds cfg unsent x) (hsame : SameOutput x y) : Ledger.Holds cfg unsent y where
  file := by rw [hsame.rawLog, hsame.outputs]; exact h.file
  kept := by rw [hsame.rawLog]; exact h.kept
  ring := by rw [hsame.ring, hsame.outputs]; exact h.ring
  delivered := by rw [hsame.outputs, hsame.selected]; exact h.delivered
  opened := by rw [hsame.tried, hsame.outputs]; exact h.opened

/-- An assertion about the recorded output. -/
private structure Framed (cfg : Config) (J : Ledger × Bool → Prop) : Prop where
  holds : ∀ x, J x → Ledger.Holds cfg [] x
  same : ∀ x y, SameOutput x y → J x → J y

private theorem framed_holds : Framed cfg (Ledger.Holds cfg []) :=
  ⟨fun _ h => h, fun _ _ hsame h => h.same hsame⟩

private theorem framed_takes (unread : List (Stream × String)) :
    Framed cfg (Ledger.Takes cfg unread) where
  holds _ h := h.holds
  same x y hsame h :=
    { holds := h.holds.same hsame
      writing := by
        have hwriting := h.writing
        unfold Ledger.Writing at hwriting ⊢
        rw [hsame.rawOpen, hsame.rawLog, hwriting]
      tried := hsame.tried ▸ h.tried
      unread := by rw [hsame.outputs, hsame.selected]; exact h.unread }

private theorem act_same {o : Op} (ho : o.isAside = true) (w : Oracle) (x : Ledger × Bool) :
    SameOutput x ((sinksCourse cfg).act w o x).2 := by
  cases o with
  | send e =>
      have hnone : outputsOf [e] = [] :=
        outputsOf_single_eq_nil.mpr (by simpa [Op.isAside] using ho)
      refine ⟨?_, rfl, rfl, rfl, rfl, rfl⟩
      change outputsOf (x.1.sent ++ [e]) = _
      rw [outputsOf_append, hnone, List.append_nil]
  | writeRaw _ | pushMemoryRaw _ | openRawFile | finalizeRawLog => cases ho
  | spawnChild =>
      cases hspawned : w.spawned <;>
        simp [Course.act, Ledger.act, hspawned, sinksCourse] <;> constructor <;> rfl
  | _ => exact ⟨rfl, rfl, rfl, rfl, rfl, rfl⟩

private theorem aside_unsent {o : Op} (ho : o.isAside = true) : o.unsent = [] := by
  cases o with
  | send e => exact outputsOf_single_eq_nil.mpr (by simpa [Op.isAside] using ho)
  | _ => rfl

private theorem aside_stays (hJ : Framed cfg J) {o : Op} (ho : o.isAside = true) :
    (sinksCourse cfg).Stays (fun _ => J) o := by
  intro β k state x hx
  refine ⟨?_, fun w => hJ.same _ _ (act_same ho w x) hx⟩
  change Ledger.Holds cfg o.unsent x
  rw [aside_unsent ho]
  exact hJ.holds x hx

private theorem along_aside (hJ : Framed cfg J) {o : Op} (ho : o.isAside = true)
    (k : o.Ans → Driver α) (x : Ledger × Bool) (hx : J x)
    (hk : ∀ a y, J y → (sinksCourse cfg).along (k a) Q y) :
    (sinksCourse cfg).along (.op o .ret >>= k) Q x :=
  Course.along_stays (aside_stays hJ ho) k x hx hk

private theorem emit_aside (hJ : Framed cfg J) {body : EventBody} (hout : body.isOutput = false)
    (time : SystemTime) (k : Unit → Driver α) (x : Ledger × Bool) (hx : J x)
    (hk : ∀ y, J y → (sinksCourse cfg).along (k ()) Q y) :
    (sinksCourse cfg).along (emit cfg body time >>= k) Q x :=
  Course.along_emit (aside_stays hJ (by simp [Op.isAside, hout])) (aside_stays hJ rfl) k x hx hk

private theorem reaction_stays (hJ : Framed cfg J) :
    ∀ o : Op, o.isReaction = true → (sinksCourse cfg).Stays (fun _ => J) o := by
  intro o ho
  refine aside_stays hJ ?_
  cases o with
  | send e => simp [Op.isAside, EventBody.kept_of_metadata ho]
  | now | instant | newPhaseId | updateSnapshot _ | insertEvent _ => rfl
  | _ => cases ho

/-- At the end the file is closed; nothing is written after that. -/
private theorem sinks_finalizeJob (outcome : Outcome) (x : Ledger × Bool)
    (hx : Ledger.Holds cfg [] x) :
    (sinksCourse cfg).along (finalizeJob cfg outcome) (fun _ => Ledger.Holds cfg []) x := by
  refine along_aside framed_holds rfl _ x hx (fun _ x hx => ?_)
  refine along_aside framed_holds rfl _ x hx (fun _ x hx => ?_)
  refine ⟨hx, fun w => ?_⟩
  have hclosed : Ledger.Holds cfg [] ((sinksCourse cfg).act w .finalizeRawLog x).2 :=
    ⟨hx.file, hx.kept, hx.ring, hx.delivered, hx.opened⟩
  refine along_aside framed_holds rfl _ _ hclosed (fun time x hx => ?_)
  exact emit_aside framed_holds rfl time _ x hx (fun y hy =>
    along_aside framed_holds rfl _ y hy (fun _ _ hz => hz))

/-- Before the log file is opened there is neither file nor line. -/
private def Blank (x : Ledger × Bool) : Prop :=
  outputsOf x.1.sent = [] ∧ x.1.rawLog = none ∧ x.1.rawOpen = false ∧ x.1.ring = [] ∧
    linesIn x.1.selected = []

private theorem Blank.holds {x : Ledger × Bool} (h : Blank x) : Ledger.Holds cfg [] x := by
  obtain ⟨houtputs, hlog, hopen, hring, hselected⟩ := h
  refine ⟨fun content hcontent => ?_, ?_, ?_, ?_, fun _ => Or.inr ?_⟩
  · rw [hlog] at hcontent
    cases hcontent
  · rw [hlog]
    exact nofun
  · rw [hring, houtputs]
    split <;> rfl
  · rw [houtputs]
    exact List.nil_prefix
  · rw [houtputs]
    rfl

private theorem framed_blank : Framed cfg Blank where
  holds _ h := h.holds
  same x y hsame h := by
    obtain ⟨houtputs, hlog, hopen, hring, hselected⟩ := h
    exact ⟨hsame.outputs.trans houtputs, hsame.rawLog.trans hlog, hsame.rawOpen.trans hopen,
      hsame.ring.trans hring, (congrArg linesIn hsame.selected).trans hselected⟩

private theorem sinks_openRawLog (x : Ledger × Bool) (hx : Blank x) :
    (sinksCourse cfg).along (openRawLog cfg) (fun _ => Ledger.Takes cfg []) x := by
  have hholds : Ledger.Holds cfg [] x := hx.holds
  obtain ⟨houtputs, hlog, hopen, hring, hselected⟩ := hx
  have hunread : outputsOf x.1.sent ++ [] = linesIn x.1.selected := by
    rw [houtputs, hselected]
    rfl
  unfold openRawLog
  split
  · next hpersists =>
      refine ⟨hholds, fun w => ?_⟩
      change Ledger.Takes cfg [] (x.1.openRaw w.rawOpens, true)
      have hopened : (x.1.openRaw w.rawOpens).rawLog = if w.rawOpens then some "" else none := by
        rw [Ledger.openRaw_rawLog, hlog]
      refine ⟨⟨fun content hcontent => ?_, fun _ => hpersists, hholds.ring, hholds.delivered,
        fun _ => Or.inl rfl⟩, ?_, fun _ => rfl, hunread⟩
      · rw [hopened] at hcontent
        obtain ⟨-, hempty⟩ := Option.ite_none_right_eq_some.mp hcontent
        cases hempty
        rw [Ledger.openRaw_sent, houtputs]
        rfl
      · rw [Ledger.Writing, hopened, Ledger.openRaw_rawOpen, hopen]
        cases w.rawOpens <;> rfl
  · next hdrops =>
      refine ⟨hholds, ?_, fun h => absurd h hdrops, hunread⟩
      rw [Ledger.Writing, hlog, hopen]
      rfl

private theorem sinks_launch :
    (sinksCourse cfg).along (spawnJob cfg) (sinksCourse cfg).handover (Ledger.init cfg, false) := by
  have hinit : Blank (Ledger.init cfg, false) := ⟨rfl, rfl, rfl, rfl, rfl⟩
  refine emit_aside framed_blank rfl cfg.createdAt _ _ hinit (fun x hx => ?_)
  refine along_aside framed_blank rfl _ x hx (fun permitted x hx => ?_)
  cases permitted with
  | false => exact hx.holds
  | true =>
      refine along_aside framed_blank rfl _ x hx (fun start x hx => ?_)
      refine Course.along_seq _ _ _ x (sinks_openRawLog x hx) (fun _ x hx => ?_)
      refine along_aside (framed_takes []) rfl _ x hx (fun spawned x hx => ?_)
      cases spawned with
      | error e =>
          exact Course.along_seq _ _ _ x (sinks_finalizeJob _ x hx.holds) (fun _ _ hz => hz)
      | ok pid =>
          refine along_aside (framed_takes []) rfl _ x hx (fun time x hx => ?_)
          refine emit_aside (framed_takes []) rfl time _ x hx (fun x hx => ?_)
          refine along_aside (framed_takes []) rfl _ x hx (fun _ x hx => ?_)
          refine along_aside (framed_takes []) rfl _ x hx (fun _ x hx => ?_)
          refine along_aside (framed_takes []) rfl _ x hx (fun _ x hx => ?_)
          exact along_aside (framed_takes []) rfl _ x hx (fun _ _ hz => hz)

/-- A line that is in the file and in memory is sent, and interpreted. -/
private theorem sinks_send (start : Instant) (stream : Stream) (text : String) (time : SystemTime)
    (state : DriverState) (x : Ledger × Bool) (hholds : Ledger.Holds cfg [(stream, text)] x)
    (hwriting : x.1.Writing) (htried : cfg.runtime.persistsRaw = true → x.2 = true)
    (hunread : outputsOf x.1.sent ++ [(stream, text)] = linesIn x.1.selected) :
    (sinksCourse cfg).along (do
      Driver.send { job := cfg.id, body := .outputAppended stream text, time }
      interpretLine cfg start { stream, text, time } state)
      (fun _ => Ledger.Takes cfg []) x := by
  refine ⟨hholds, fun w => ?_⟩
  have houtputs : outputsOf
      (x.1.sent ++ [{ job := cfg.id, body := .outputAppended stream text, time }]) ++ [] =
      outputsOf x.1.sent ++ [(stream, text)] := by
    rw [outputsOf_append, List.append_nil]
    rfl
  have hsent : Ledger.Takes cfg []
      (x.1.send { job := cfg.id, body := .outputAppended stream text, time }, x.2) :=
    { holds :=
        { file := by rw [Ledger.send_sent, houtputs]; exact hholds.file
          kept := hholds.kept
          ring := by rw [Ledger.send_sent, houtputs]; exact hholds.ring
          delivered := by rw [Ledger.send_sent, houtputs]; exact hholds.delivered
          opened := by rw [Ledger.send_sent, houtputs]; exact hholds.opened }
      writing := hwriting
      tried := htried
      unread := by rw [Ledger.send_sent, houtputs]; exact hunread }
  exact (Course.Keeps.of_stays (reaction_stays (framed_takes []))).passes.interpretLine
    (fun _ _ => aside_stays (framed_takes []) rfl) start _ state _ hsent

private theorem sinks_processLine (start : Instant) (stream : Stream) (text : String)
    (state : DriverState) (x : Ledger × Bool) (hx : Ledger.Takes cfg [(stream, text)] x) :
    (sinksCourse cfg).along (processLine cfg start stream text state)
      (fun _ => Ledger.Takes cfg []) x := by
  refine along_aside (framed_takes _) rfl _ x hx (fun time x hx => ?_)
  refine ⟨hx.holds, fun w => ?_⟩
  have hdelivered : outputsOf x.1.sent ++ [(stream, text)] <+: linesIn x.1.selected := by
    rw [hx.unread]
  unfold rememberRaw
  split
  · next hmemory =>
      -- there is no file under this policy, so the first write does nothing
      have hnone : x.1.rawLog = none := by
        refine Option.not_isSome_iff_eq_none.mp (fun hsome => ?_)
        have hpersists := hx.holds.kept hsome
        simp [RuntimeConfig.persistsRaw, hmemory] at hpersists
      have hwritten : Ledger.Takes cfg [(stream, text)]
          (x.1.writeRaw (rawLine stream text ++ "\n"), x.2) :=
        (framed_takes _).same x _ ⟨rfl, by simp [hnone], rfl, rfl, rfl, rfl⟩ hx
      refine ⟨hwritten.holds, fun w => ?_⟩
      have hpushed : Ledger.Holds cfg [(stream, text)]
          ((x.1.writeRaw (rawLine stream text ++ "\n")).push (rawLine stream text), x.2) :=
        { file := by simp [hnone]
          kept := by simp [hnone]
          ring := by
            have hring := hx.holds.ring
            rw [if_pos hmemory, List.append_nil] at hring
            rw [if_pos hmemory, Ledger.push_ring, Ledger.writeRaw_ring, hring, Ledger.push_sent,
              Ledger.writeRaw_sent, ringOf, ringOf, List.foldl_append]
            rfl
          delivered := hdelivered
          opened := fun h => Or.inl (hx.tried h) }
      exact sinks_send start stream text time state _ hpushed hwritten.writing hx.tried hx.unread
  · next hdisk =>
      have hwriting := hx.writing
      unfold Ledger.Writing at hwriting
      have hwritten : Ledger.Holds cfg [(stream, text)]
          (x.1.writeRaw (rawLine stream text ++ "\n"), x.2) :=
        { file := by
            intro content hcontent
            cases hlog : x.1.rawLog with
            | none => simp [hlog] at hcontent
            | some before =>
                have hbefore := hx.holds.file before hlog
                rw [List.append_nil] at hbefore
                simp only [Ledger.writeRaw_rawLog, hwriting, hlog, Option.isSome_some, if_true,
                  Option.map_some, Option.some.injEq] at hcontent
                rw [← hcontent, hbefore, rawText, rawText, Ledger.writeRaw_sent,
                  List.foldl_append]
                rfl
          kept := by
            intro hsome
            refine hx.holds.kept ?_
            cases hlog : x.1.rawLog with
            | none => simp [hlog] at hsome
            | some before => rfl
          ring := by rw [if_neg hdisk, Ledger.writeRaw_ring, hx.holds.ring, if_neg hdisk]
          delivered := hdelivered
          opened := fun h => Or.inl (hx.tried h) }
      have hstill : (x.1.writeRaw (rawLine stream text ++ "\n")).Writing := by
        unfold Ledger.Writing
        cases hlog : x.1.rawLog <;> simp [hwriting, hlog]
      exact sinks_send start stream text time state _ hwritten hstill hx.tried hx.unread

/-- A turn of the loop may deliver a line. -/
private theorem Takes.select {x : Ledger × Bool} (h : Ledger.Takes cfg [] x) (r : SelectResult) :
    Ledger.Takes cfg (linesIn [r]) (x.1.select r, x.2) := by
  have hunread := h.unread
  have hdelivered := h.holds.delivered
  rw [List.append_nil] at hunread hdelivered
  have hlines : linesIn (x.1.select r).selected = linesIn x.1.selected ++ linesIn [r] :=
    linesIn_append x.1.selected r
  exact
    { holds :=
        { h.holds with
          delivered := by
            rw [List.append_nil, hlines]
            exact hdelivered.trans (List.prefix_append _ _) }
      writing := h.writing
      tried := h.tried
      unread := by rw [hlines, ← hunread]; rfl }

private theorem sinks_held : (sinksCourse cfg).Held where
  launch := sinks_launch
  turn v x r _ _ hx _ _ := by
    have hread := Takes.select hx r
    cases r with
    | line stream result =>
        rcases result with _ | _ | text
        · exact hread
        · exact hread
        · exact Course.along_seq _ _ _ _ (sinks_processLine v.start stream text v.state _ hread)
            (fun _ _ hz => hz)
    | exit result =>
        refine along_aside (framed_takes []) rfl _ _ hread (fun time x hx => ?_)
        refine emit_aside (framed_takes []) rfl time _ x hx (fun x hx => ?_)
        refine along_aside (framed_takes []) rfl _ x hx (fun _ x hx => ?_)
        exact along_aside (framed_takes []) rfl _ x hx (fun _ _ hz => hz)
  finish v x _ hx _ := by
    have hkeeps := Course.Keeps.of_stays (@reaction_stays cfg _ (framed_takes []))
    refine Course.along_seq _ _ _ x (hkeeps.passes.runOnExit
      (fun _ _ => aside_stays (framed_takes []) rfl) v.start (finalExitCode v.exitStatus)
      v.state x hx) (fun state x hx => ?_)
    refine Course.along_seq _ _ _ x (hkeeps.exitOpenPhases state x hx) ?_
    intro state x hx
    refine along_aside (framed_takes []) rfl _ x hx (fun cancelled x hx => ?_)
    exact sinks_finalizeJob _ x hx.holds

end Held

/-! The sinks of a run. -/

/-- The file system lets the log file be opened. -/
def Label.opensRaw : Label → Bool
  | .driver w => w.rawOpens
  | _ => true

theorem Sys.act_rawLog_isSome {cfg : Config} {w : Oracle} {o : Op} {s : Sys}
    (h : s.rawLog.isSome) : (s.act cfg w o).2.rawLog.isSome := by
  cases o with
  | writeRaw text => simp only [Sys.act]; split <;> simpa using h
  | openRawFile => simp only [Sys.act]; split <;> first | rfl | exact h
  | spawnChild => simp only [Sys.act]; cases w.spawned <;> exact h
  | upsertSnapshot =>
      simp only [Sys.act, Sys.upsertSnapshot]
      repeat' split
      all_goals exact h
  | _ => exact h

/-- A log file stays. -/
theorem Sys.step_rawLog_isSome {cfg : Config} {s t : Sys} {l : Label}
    (hstep : s.step cfg l = some t) (h : s.rawLog.isSome) : t.rawLog.isSome := by
  cases Sys.step_by hstep with
  | driver w hdriver =>
      rcases Sys.driverStep_cases hdriver with ⟨o, k, hctl, rfl⟩ | ⟨v, hctl, hmove⟩
      · exact Sys.act_rawLog_isSome h
      · cases hmove with
        | op w o k hctl' => exact Sys.act_rawLog_isSome h
        | _ => exact h
  | wait c w hwait =>
      have hledger := (Sys.waitStep_move hwait).frame.2.2
      rw [show t.rawLog = s.rawLog from congrArg Ledger.rawLog hledger]
      exact h
  | world _ hworld =>
      have hledger := (hworld.frame cfg).2.2
      rw [show t.rawLog = s.rawLog from congrArg Ledger.rawLog hledger]
      exact h

/-- What a job has recorded of its output. -/
structure Sys.Filed (cfg : Config) (s : Sys) : Prop where
  file : ∀ content, s.rawLog = some content → content = rawText s.lines
  ring : s.memoryRaw cfg.id =
    if cfg.runtime.rawOutput = .memoryOnly then lastLines s.lines else []
  readable : readRaw (rawText s.lines) = some s.lines

/-- The course of the sinks, wherever the driver stands. -/
private theorem holds_of_at {cfg : Config} {x : Ledger × Bool} {c : Ctl}
    (h : (sinksCourse cfg).At x c) : Ledger.Holds cfg c.unsent x := by
  cases c with
  | run p =>
      cases p with
      | ret next => cases next with
        | loop v => exact h.holds
        | returned => exact h
      | op o k => exact h.1
  | top v => exact h.holds
  | returned => exact h

private theorem sent_lines {cfg : Config} {s : Sys} (hs : Sys.Reachable cfg s) :
    outputsOf s.sent ++ s.ctl.unsent = s.lines := by
  rw [Sys.lines, ← outputsOf_own s.log, ← hs.merged.own]

theorem Sys.Reachable.filed {cfg : Config} {s : Sys} (hs : Sys.Reachable cfg s) :
    s.Filed cfg := by
  obtain ⟨g, hat⟩ := sinks_held.holds hs
  have hholds := holds_of_at hat
  have hlines : outputsOf (s.ledger cfg).sent ++ s.ctl.unsent = s.lines := sent_lines hs
  have hring := hholds.ring
  have hdelivered := hholds.delivered
  rw [hlines] at hring hdelivered
  refine ⟨fun content hcontent => ?_, ?_, readRaw_rawText (fun line hline => ?_)⟩
  · rw [← hlines]
    exact hholds.file content hcontent
  · rw [← ringOf_eq_lastLines]
    exact hring
  · exact hs.lineFeed line (hdelivered.subset hline)

/-- If the log file could be opened, a line that was processed is in it. -/
theorem lines_in_file {cfg : Config} (hpersists : cfg.runtime.persistsRaw = true)
    {ls : List Label} {s : Sys}
    (hmeet : Transition.StepsMeet (Sys.step cfg) (fun _ l => l.opensRaw = true) (Sys.init cfg) ls)
    (hrun : Transition.run (Sys.step cfg) (Sys.init cfg) ls = some s) :
    s.rawLog.getD "" = rawText s.lines := by
  have htried : ∃ g, (sinksCourse cfg).At (s.ledger cfg, g) s.ctl ∧
      (g = true → s.rawLog.isSome) := by
    refine Sys.run_induction (fun _ s => ∃ g, (sinksCourse cfg).At (s.ledger cfg, g) s.ctl ∧
      (g = true → s.rawLog.isSome)) hmeet hrun
      ⟨false, Course.At.start sinks_held, fun h => by cases h⟩ ?_
    rintro done s l t hdone ⟨g, hat, hopened⟩ hopens hstep
    obtain ⟨g', hmoved, hat'⟩ := sinks_held.step ⟨done, hdone⟩ hat hstep
    refine ⟨g', hat', fun htrue => ?_⟩
    have hkept : g = true → t.rawLog.isSome := fun h =>
      Sys.step_rawLog_isSome hstep (hopened h)
    cases hmoved with
    | op w o k hctl ht =>
        cases o with
        | openRawFile =>
            rw [ht]
            simp only [Sys.act, show w.rawOpens = true from hopens, if_true, Option.isSome_some]
        | _ => exact hkept htrue
    | turn | wait | world => exact hkept htrue
  obtain ⟨g, hat, hopened⟩ := htried
  have hs : Sys.Reachable cfg s := ⟨ls, hrun⟩
  have hlines : outputsOf (s.ledger cfg).sent ++ s.ctl.unsent = s.lines := sent_lines hs
  cases hlog : s.rawLog with
  | some content => exact hs.filed.file content hlog
  | none =>
      have hempty := ((holds_of_at hat).opened hpersists).resolve_left (fun htrue => by
        rw [hlog] at hopened
        cases hopened htrue)
      rw [← hlines, hempty]
      rfl

end Execra
