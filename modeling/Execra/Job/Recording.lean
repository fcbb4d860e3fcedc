import Execra.Job.Lifecycle

/-!
What the driver records of its select loop. The output lines it sends, the
exit it announces, the log file and the memory ring are functions of the
results of the loop alone; nothing an interpreter answers flows into them.
-/

namespace Execra

open Program

/-- The output lines of a log. -/
def outputsOf (log : List Event) : List (Stream × String) :=
  log.filterMap (fun e =>
    match e.body with
    | .outputAppended stream line => some (stream, line)
    | _ => none)

/-- The exits a log announces. -/
def exitsOf (log : List Event) : List ExitCode :=
  log.filterMap (fun e =>
    match e.body with
    | .exited code => some code
    | _ => none)

/-- The lines the select loop has delivered. -/
def linesIn (rs : List SelectResult) : List (Stream × String) :=
  rs.filterMap SelectResult.output?

/-- The content of the log file for some lines. -/
def rawText (lines : List (Stream × String)) : String :=
  lines.foldl (fun text line => text ++ (rawLine line.1 line.2 ++ "\n")) ""

/-- The memory ring for some lines. -/
def ringOf (lines : List (Stream × String)) : List String :=
  lines.foldl (fun ring line => evict (ring ++ [rawLine line.1 line.2])) []

theorem outputsOf_append (log : List Event) (e : Event) :
    outputsOf (log ++ [e]) = outputsOf log ++ outputsOf [e] := List.filterMap_append ..

theorem exitsOf_append (log : List Event) (e : Event) :
    exitsOf (log ++ [e]) = exitsOf log ++ exitsOf [e] := List.filterMap_append ..

/-- `Cancelled` is neither output nor exit. -/
theorem outputsOf_own (log : List Event) :
    outputsOf (log.filter (fun e => !e.body.isCancelled)) = outputsOf log := by
  rw [outputsOf, List.filterMap_filter, outputsOf]
  congr 1
  funext e
  cases hbody : e.body <;> simp [EventBody.isCancelled]

theorem exitsOf_own (log : List Event) :
    exitsOf (log.filter (fun e => !e.body.isCancelled)) = exitsOf log := by
  rw [exitsOf, List.filterMap_filter, exitsOf]
  congr 1
  funext e
  cases hbody : e.body <;> simp [EventBody.isCancelled]

def EventBody.isExited : EventBody → Bool
  | .exited _ => true
  | _ => false

theorem exitsOf_eq_nil {log : List Event} :
    exitsOf log = [] ↔ ∀ e ∈ log, e.body.isExited = false := by
  rw [exitsOf, List.filterMap_eq_nil_iff]
  refine forall₂_congr (fun e _ => ?_)
  cases e.body <;> simp [EventBody.isExited]

theorem linesIn_append (rs : List SelectResult) (r : SelectResult) :
    linesIn (rs ++ [r]) = linesIn rs ++ linesIn [r] := List.filterMap_append ..

/-- The records of a driver whose select loop has returned `rs`. -/
structure Ledger.Recorded (cfg : Config) (rs : List SelectResult) (d : Ledger) : Prop where
  selected : d.selected = rs
  outputs : outputsOf d.sent = linesIn rs
  exits : exitsOf d.sent = ((exitIn rs).map (fun o => exitCodeOf o.status)).toList
  raw : d.rawLog = none ∨ d.rawLog = some (rawText (linesIn rs))
  ring : d.ring = if cfg.runtime.rawOutput = .memoryOnly then ringOf (linesIn rs) else []

/-- The log file is open if there is one. -/
def Ledger.Writing (d : Ledger) : Prop := d.rawOpen = d.rawLog.isSome

section Recorded

variable {cfg : Config} {rs : List SelectResult} {d d' : Ledger}

/-- An event that is neither output nor exit leaves the records alone. -/
theorem Ledger.Recorded.send (h : d.Recorded cfg rs) {e : Event}
    (hout : outputsOf [e] = []) (hexit : exitsOf [e] = []) :
    (d.send e).Recorded cfg rs where
  selected := h.selected
  outputs := by rw [Ledger.send_sent, outputsOf_append, hout, List.append_nil, h.outputs]
  exits := by rw [Ledger.send_sent, exitsOf_append, hexit, List.append_nil, h.exits]
  raw := h.raw
  ring := h.ring

theorem Ledger.Recorded.frame (h : d.Recorded cfg rs) (hsel : d'.selected = d.selected)
    (hsent : d'.sent = d.sent) (hraw : d'.rawLog = d.rawLog) (hring : d'.ring = d.ring) :
    d'.Recorded cfg rs where
  selected := hsel.trans h.selected
  outputs := hsent ▸ h.outputs
  exits := hsent ▸ h.exits
  raw := hraw ▸ h.raw
  ring := hring ▸ h.ring

theorem Ledger.Recorded.metadata (h : d.Recorded cfg rs) (hmove : d.Metadata cfg d') :
    d'.Recorded cfg rs := by
  cases hmove with
  | send body time hbody =>
      refine h.send ?_ ?_ <;> cases body <;> first | rfl | cases hbody
  | update u hu => exact h.frame rfl rfl rfl rfl
  | newPhase => exact h.frame rfl rfl rfl rfl

/-- A turn of the loop that delivers neither a line nor the exit. -/
theorem Ledger.Recorded.select (h : d.Recorded cfg rs) {r : SelectResult}
    (hline : linesIn [r] = []) (hexit : r.exit? = none) :
    (d.select r).Recorded cfg (rs ++ [r]) := by
  have hlines : linesIn (rs ++ [r]) = linesIn rs := by
    rw [linesIn_append, hline, List.append_nil]
  have hexits : exitIn (rs ++ [r]) = exitIn rs := by
    rw [exitIn_append, hexit, Option.or_none]
  exact
    { selected := congrArg (· ++ [r]) h.selected
      outputs := by rw [hlines]; exact h.outputs
      exits := by rw [hexits]; exact h.exits
      raw := by rw [hlines]; exact h.raw
      ring := by rw [hlines]; exact h.ring }

/-- The driver records a line: in the file, in memory, in the stream. -/
theorem Ledger.Recorded.line (h : d.Recorded cfg rs) (hwriting : d.Writing)
    (stream : Stream) (text : String) (time : SystemTime) :
    let r : SelectResult := .line stream (some (.ok text))
    let written := (d.select r).writeRaw (rawLine stream text ++ "\n")
    ((written.remember cfg (rawLine stream text)).send
      { job := cfg.id, body := .outputAppended stream text, time }).Recorded cfg
        (rs ++ [r]) := by
  have hlines : linesIn (rs ++ [.line stream (some (.ok text))]) =
      linesIn rs ++ [(stream, text)] := linesIn_append ..
  have hexits : exitIn (rs ++ [.line stream (some (.ok text))]) = exitIn rs := by
    simp [exitIn_append, SelectResult.exit?]
  exact
    { selected := congrArg (· ++ [_]) h.selected
      outputs := by
        rw [hlines, Ledger.send_sent, outputsOf_append]
        exact congrArg (· ++ [(stream, text)]) h.outputs
      exits := by
        rw [hexits, Ledger.send_sent, exitsOf_append]
        exact (List.append_nil _).trans h.exits
      raw := by
        unfold Ledger.Writing at hwriting
        rcases h.raw with hraw | hraw
        · left; simp [hraw]
        · right
          simp [hraw, hwriting, hlines, rawText]
      ring := by
        rw [hlines]
        simp only [Ledger.send_ring, Ledger.remember_ring, Ledger.writeRaw_ring,
          Ledger.select_ring, h.ring]
        split <;> simp [ringOf] }

theorem Ledger.Recorded.exit (h : d.Recorded cfg rs) (hfirst : exitIn rs = none)
    (outcome : WaitOutcome) (time : SystemTime) :
    let r : SelectResult := .exit (some outcome)
    ((d.select r).send
      { job := cfg.id, body := .exited (exitCodeOf outcome.status), time }).Recorded cfg
        (rs ++ [r]) := by
  have hlines : linesIn (rs ++ [.exit (some outcome)]) = linesIn rs :=
    (linesIn_append ..).trans (List.append_nil _)
  have hexits : exitIn (rs ++ [.exit (some outcome)]) = some outcome := by
    simp [exitIn_append, hfirst, SelectResult.exit?]
  exact
    { selected := congrArg (· ++ [_]) h.selected
      outputs := by
        rw [hlines, Ledger.send_sent, outputsOf_append]
        exact (List.append_nil _).trans h.outputs
      exits := by
        rw [hexits, Ledger.send_sent, exitsOf_append, Ledger.select_sent, h.exits, hfirst]
        rfl
      raw := by rw [hlines]; exact h.raw
      ring := by rw [hlines]; exact h.ring }

end Recorded

/-- What the driver has recorded when its program hands over. -/
def Ledger.UpToDate (cfg : Config) (d : Ledger) : Prop := d.Recorded cfg d.selected

theorem Ledger.Recorded.upToDate {cfg : Config} {rs : List SelectResult} {d : Ledger}
    (h : d.Recorded cfg rs) : d.UpToDate cfg := by
  rw [UpToDate, h.selected]
  exact h

private theorem finalizeJob_recorded {cfg : Config} {d : Ledger} (h : d.UpToDate cfg)
    (outcome : Outcome) :
    Driver.wp cfg (fun _ _ => True) (finalizeJob cfg outcome)
      (fun _ => Ledger.UpToDate cfg) d := by
  refine Driver.wp_finalizeJob ?_
  intro ok time finalized stored sent
  have hclosed : stored.closeRaw.Recorded cfg d.selected := h.frame rfl rfl rfl rfl
  have hsent : sent.Recorded cfg d.selected := hclosed.send rfl rfl
  have hanswered : (sent.answer outcome).Recorded cfg d.selected := hsent.frame rfl rfl rfl rfl
  exact ⟨respects_true _ _, respects_true _ _, respects_true _ _, respects_true _ _,
    respects_true _ _, hanswered⟩

private def recordingSpec (cfg : Config) : Spec cfg Tracked where
  guarantee _ _ := True
  top _ d := d.UpToDate cfg ∧ d.Writing
  done := Ledger.UpToDate cfg
  launch := by
    refine Driver.wp_spawnJob ?_
    intro opens _ created opened
    have hopened : opened.Recorded cfg [] :=
      ⟨rfl, rfl, rfl, by cases opens <;> simp [opened, created, Ledger.init, rawText, linesIn],
        by simp [opened, created, Ledger.init, ringOf, linesIn]⟩
    have hwriting : opened.Writing := by
      unfold Ledger.Writing
      cases opens <;> simp [opened, created, Ledger.init]
    refine ⟨respects_true _ _, respects_true _ _, respects_true _ _, ?_, ?_⟩
    · exact fun error => finalizeJob_recorded (d := opened.failSpawn)
        (hopened.frame rfl rfl rfl rfl) _
    · intro start pid
      refine ⟨respects_true _ _, Driver.wp_startJob ?_⟩
      intro ok sentAt startedAt sent running stored attended
      have hspawned : (opened.spawned pid).Recorded cfg [] := hopened.frame rfl rfl rfl rfl
      have hattended : attended.Recorded cfg [] :=
        (hspawned.send (e := { job := cfg.id, body := .jobStarted pid, time := sentAt })
          rfl rfl).frame rfl rfl rfl rfl
      exact ⟨respects_true _ _, respects_true _ _, respects_true _ _, respects_true _ _,
        hattended, hwriting⟩
  turn := by
    rintro v d r htracked ⟨hdate, hwriting⟩ - hoffer
    refine ⟨trivial, ?_⟩
    cases r with
    | line stream result =>
        rcases result with _ | _ | text
        · have hrec := hdate.select (r := .line stream none) rfl rfl
          exact ⟨hrec.upToDate, hwriting⟩
        · next e =>
            have hrec := hdate.select (r := .line stream (some (.error e))) rfl rfl
            exact ⟨hrec.upToDate, hwriting⟩
        · refine Driver.wp_lineTurn (Driver.wp_processLine ?_)
          intro time written kept sent
          have hsent : sent.Recorded cfg (d.selected ++ [.line stream (some (.ok text))]) :=
            hdate.line hwriting stream text time
          have hopen : sent.Writing := by
            unfold Ledger.Writing at hwriting ⊢
            cases hopen : d.rawOpen <;> cases hlog : d.rawLog <;>
              simp_all [sent, kept, written]
          refine ⟨respects_true _ _, respects_true _ _, respects_true _ _, ?_⟩
          have hkeep : ∀ d₁ d₂ : Ledger,
              d₁.Recorded cfg (d.selected ++ [.line stream (some (.ok text))]) ∧ d₁.Writing →
              d₁.Metadata cfg d₂ → True ∧
                d₂.Recorded cfg (d.selected ++ [.line stream (some (.ok text))]) ∧
                  d₂.Writing := by
            rintro d₁ d₂ ⟨hd₁, hwr⟩ hmove
            refine ⟨trivial, hd₁.metadata hmove, ?_⟩
            cases hmove <;> exact hwr
          have hinterp := interpretLine_keeps hkeep v.start { stream, text, time } v.state
            sent ⟨hsent, hopen⟩
          exact wp_consequence _ _ hinterp (fun _ _ hd' => ⟨hd'.1.upToDate, hd'.2⟩)
    | exit result =>
        obtain ⟨hfirst, hsome⟩ := hoffer
        obtain ⟨outcome, rfl⟩ := Option.isSome_iff_exists.mp hsome
        have hnone : exitIn d.selected = none := by simpa [hfirst] using htracked.exited
        refine Driver.wp_receiveExit ?_
        intro ok time sent exited next
        have hsent : sent.Recorded cfg (d.selected ++ [.exit (some outcome)]) :=
          hdate.exit hnone outcome time
        have hstored : (exited.upsert ok).Recorded cfg (d.selected ++ [.exit (some outcome)]) :=
          hsent.frame rfl rfl rfl rfl
        exact ⟨respects_true _ _, respects_true _ _, respects_true _ _, hstored.upToDate,
          hwriting⟩
  finish := by
    rintro v d - ⟨hdate, -⟩ -
    refine finishJob_keeps (I := fun d' => d'.Recorded cfg d.selected)
      (fun _ _ h hmove => ⟨trivial, h.metadata hmove⟩) v d hdate ?_
    intro cancelled state d' hd' _
    have hjudged : (d'.judge cancelled).Recorded cfg d.selected := hd'.frame rfl rfl rfl rfl
    exact ⟨respects_true _ _, finalizeJob_recorded hjudged.upToDate _⟩

/-- At the head of the loop and at the end, the records are those of the
results so far. -/
theorem Sys.Reachable.recorded {cfg : Config} {s : Sys} (hs : Sys.Reachable cfg s)
    (hctl : (∃ v, s.ctl = .top v) ∨ s.ctl = .returned) :
    (s.ledger cfg).Recorded cfg s.selected := by
  have hat := (recordingSpec cfg).holds (tracked_of_top cfg) hs
  rcases hctl with ⟨v, hctl⟩ | hctl
  · rw [hctl] at hat
    exact hat.1
  · rw [hctl] at hat
    exact hat

/-- Before the driver has received an exit it has announced none. -/
theorem Ledger.InLifecycle.exitsOf_nil {d : Ledger} (h : d.InLifecycle)
    (hnone : exitIn d.selected = none) : exitsOf d.sent = [] := by
  obtain ⟨life, hrun, hagrees⟩ := h
  have hshape := Life.shape_of_run hrun
  have hinside : ∀ b ∈ d.sent.map Event.body, b.isExited = false := by
    cases life with
    | fresh => rw [show d.sent.map Event.body = [] from hshape]; simp
    | created => obtain ⟨_, hword⟩ := hshape; simp [hword, EventBody.isExited]
    | failed => obtain ⟨_, _, hword⟩ := hshape; simp [hword, EventBody.isExited]
    | started c =>
        obtain ⟨_, _, before, hword, -, hbefore⟩ := hshape
        rw [hword]
        simp only [List.mem_cons, forall_eq_or_imp]
        refine ⟨rfl, rfl, fun b hb => ?_⟩
        cases b with
        | exited code => cases hbefore _ hb rfl
        | _ => rfl
    | exited => simp [Ledger.Agrees, hnone] at hagrees
    | finalized => simp [Ledger.Agrees, LoopOver, hnone] at hagrees
  exact exitsOf_eq_nil.mpr (fun e he => hinside _ (List.mem_map_of_mem he))

end Execra
