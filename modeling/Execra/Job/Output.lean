import Execra.Job.Recording
import Execra.Job.Wire

/-!
What becomes of the bytes the child writes. A pipe is accounted for while the
bytes that have arrived are those of the lines delivered so far, then the bytes
the pending `next_line` holds, then the bytes not read yet. Every poll keeps
the account; dropping a future that holds bytes breaks it. In a run of the
select loop that drops no such future, the lines of a stream are the reference
split of its bytes.
-/

namespace Execra

/-- The line a result of `next_line` delivers. -/
def deliveredLine : Option (Option (Except IoError String)) → List String
  | some (some (.ok text)) => [text]
  | _ => []

/-- The bytes that have arrived at a pipe, against the lines delivered. A pipe
whose reading has failed is not accounted for. -/
inductive Pipe.Accounted (p : Pipe) (arrived : List UInt8) (lines : List String) : Prop where
  | failed (error) (hfail : p.fin = some (.failed error))
  | reading (consumed : List UInt8) (pieces : List (List UInt8))
      (hbytes : arrived = consumed ++ (p.held ++ p.avail))
      (hcut : Lines.Cut newline consumed pieces) (hlines : lines = pieces.map pieceText)
  | drained (heof : p.fin = some .eof) (hheld : p.held = []) (havail : p.avail = [])
      (hlines : lines = referenceLines arrived)

section Pipe

variable {p q : Pipe} {arrived : List UInt8} {lines : List String}

/-- A poll keeps the account, whatever it returns. -/
theorem Pipe.Accounted.poll {r : Option (Option (Except IoError String))}
    (h : p.Accounted arrived lines) (hpoll : p.Poll r q) :
    q.Accounted arrived (lines ++ deliveredLine r) := by
  cases hpoll with
  | terminated _ hline hheld havail hfin =>
      cases h with
      | failed error hfail => exact .failed error (hfin.trans hfail)
      | drained _ _ hnone _ => rw [hnone] at hline; cases hline
      | reading consumed pieces hbytes hcut hlines =>
          have hfree : newline ∉ p.held ++ Lines.beforeDelim newline p.avail := by
            simp [p.heldOpen, Lines.not_mem_beforeDelim]
          refine .reading _ _ ?_ (hcut.line hfree) (by simp [hlines, deliveredLine])
          rw [hbytes, hheld, havail]
          nth_rewrite 1 [← Lines.beforeDelim_append_afterDelim p.avail hline]
          simp
  | pending _ hline hopen hheld havail hfin =>
      cases h with
      | failed error hfail => exact .failed error (hfin.trans hfail)
      | drained heof => rw [hopen] at heof; cases heof
      | reading consumed pieces hbytes hcut hlines =>
          exact .reading consumed pieces (by simp [hbytes, hheld, havail]) hcut
            (by simp [hlines, deliveredLine])
  | unterminated _ hline heof hrest hheld havail hfin =>
      cases h with
      | failed error hfail => exact .failed error (hfin.trans hfail)
      | drained _ hnone hnone' => exact absurd (by simp [hnone, hnone']) hrest
      | reading consumed pieces hbytes hcut hlines =>
          refine .drained (hfin.trans heof) hheld havail ?_
          have hfree : newline ∉ p.held ++ p.avail := by simp [hline, p.heldOpen]
          have hpieces := Lines.pieces_unterminated _ hfree hrest
          rw [referenceLines, hbytes, hcut, hpieces, hlines]
          simp [deliveredLine]
  | eof _ heof hrest hheld havail hfin =>
      obtain ⟨hnone, hnone'⟩ := List.append_eq_nil_iff.mp hrest
      cases h with
      | failed error hfail => exact .failed error (hfin.trans hfail)
      | drained _ _ _ hlines =>
          exact .drained (hfin.trans heof) hheld havail (by simp [hlines, deliveredLine])
      | reading consumed pieces hbytes hcut hlines =>
          exact .reading consumed pieces (by simp [hbytes, hheld, havail, hnone, hnone']) hcut
            (by simp [hlines, deliveredLine])
  | failed _ error hfail hheld havail hfin => exact .failed error (hfin.trans hfail)

/-- Dropping a future that holds nothing loses nothing. -/
theorem Pipe.Accounted.dropFuture (h : p.Accounted arrived lines) (hheld : p.held = []) :
    p.dropFuture.Accounted arrived lines := by
  cases h with
  | failed error hfail => exact .failed error hfail
  | drained heof _ havail hlines => exact .drained heof rfl havail hlines
  | reading consumed pieces hbytes hcut hlines =>
      exact .reading consumed pieces (by simp [hbytes, hheld]) hcut hlines

theorem Pipe.Accounted.polled {done : Bool} (h : p.Accounted arrived lines)
    (hwaits : p.Waits done) : (p.polled done).Accounted arrived lines := by
  unfold Pipe.polled
  split
  · exact h
  · next hdone =>
      have hpending := hwaits.resolve_left hdone
      have hpoll := h.poll p.nextLine_poll
      rw [hpending] at hpoll
      simpa [deliveredLine] using hpoll

theorem Pipe.Accounted.arrive (h : p.Accounted arrived lines) (hfin : p.fin = none)
    (bytes : List UInt8) : (p.arrive bytes).Accounted (arrived ++ bytes) lines := by
  cases h with
  | failed error hfail => rw [hfin] at hfail; cases hfail
  | drained heof => rw [hfin] at heof; cases heof
  | reading consumed pieces hbytes hcut hlines =>
      exact .reading consumed pieces (by simp [hbytes, Pipe.arrive]) hcut hlines

theorem Pipe.Accounted.close (h : p.Accounted arrived lines) (hfin : p.fin = none)
    (how : PipeEnd) : (p.close how).Accounted arrived lines := by
  cases h with
  | failed error hfail => rw [hfin] at hfail; cases hfail
  | drained heof => rw [hfin] at heof; cases heof
  | reading consumed pieces hbytes hcut hlines =>
      exact .reading consumed pieces hbytes hcut hlines

/-- When there is nothing left to read, the lines are the reference split. -/
theorem Pipe.Accounted.over (h : p.Accounted arrived lines) (hover : p.Over)
    (heof : p.fin = some .eof) : lines = referenceLines arrived := by
  obtain ⟨-, hheld, havail⟩ := hover
  cases h with
  | failed error hfail => rw [heof] at hfail; cases hfail
  | drained _ _ _ hlines => exact hlines
  | reading consumed pieces hbytes hcut hlines =>
      have hall : Lines.pieces newline arrived = pieces := by
        have hcut' := hcut []
        simpa [hbytes, hheld, havail] using hcut'
      rw [hlines, referenceLines, hall]

/-- A branch that has completed leaves nothing in its future. -/
theorem Pipe.Poll.held_nil {r : Option (Option (Except IoError String))} (h : p.Poll r q)
    (hready : r.isSome) : q.held = [] := by
  cases h with
  | pending => cases hready
  | terminated _ _ hheld => exact hheld
  | unterminated _ _ _ _ hheld => exact hheld
  | eof _ _ _ hheld => exact hheld
  | failed _ _ _ hheld => exact hheld

/-- The branch completes: its line is delivered, and its future is dropped. -/
theorem Pipe.Accounted.complete (h : p.Accounted arrived lines)
    {result : Option (Except IoError String)} (hready : p.nextLine.1 = some result) :
    p.nextLine.2.dropFuture.Accounted arrived (lines ++ deliveredLine (some result)) := by
  have hpoll := p.nextLine_poll
  rw [hready] at hpoll
  exact (h.poll hpoll).dropFuture (hpoll.held_nil rfl)

end Pipe

/-! The select loop. -/

/-- The branch of a stream completes in this turn. -/
def Pipe.ready (p : Pipe) (done : Bool) : Bool := !done && p.nextLine.1.isSome

def Oneshot.isSent {α : Type} : Oneshot α → Bool
  | .sent _ => true
  | _ => false

/-- A step that drops no half-read line: in a turn of the select loop in which
a branch completes, the futures of the other streams hold no bytes. -/
def Sys.KeepsPartialLines (s : Sys) : Label → Prop
  | .driver _ =>
      match s.ctl with
      | .top v =>
          if s.stdout.ready v.stdoutDone then s.stderr.held = []
          else if s.stderr.ready v.stderrDone then (s.stdout.polled v.stdoutDone).held = []
          else if !v.childExited && s.exitRx.isSent then
            (s.stdout.polled v.stdoutDone).held = [] ∧ (s.stderr.polled v.stderrDone).held = []
          else True
      | _ => True
  | _ => True

instance (s : Sys) (l : Label) : Decidable (s.KeepsPartialLines l) := by
  unfold Sys.KeepsPartialLines
  split
  · split <;> infer_instance
  · infer_instance

/-- The lines of one stream. -/
def linesOf (stream : Stream) (lines : List (Stream × String)) : List String :=
  lines.filterMap (fun line => if line.1 = stream then some line.2 else none)

def Label.bytesOn (stream : Stream) : Label → List UInt8
  | .arrive s bytes => if s = stream then bytes else []
  | _ => []

/-- The bytes the child has written on a stream in a run. -/
def arrivedOn (stream : Stream) (ls : List Label) : List UInt8 := ls.flatMap (Label.bytesOn stream)

theorem arrivedOn_append (stream : Stream) (ls : List Label) (l : Label) :
    arrivedOn stream (ls ++ [l]) = arrivedOn stream ls ++ l.bytesOn stream := by
  simp [arrivedOn]

theorem linesOf_select (stream stream' : Stream) (rs : List SelectResult)
    (result : Option (Except IoError String)) :
    linesOf stream (linesIn (rs ++ [.line stream' result])) =
      linesOf stream (linesIn rs) ++
        if stream' = stream then deliveredLine (some result) else [] := by
  rw [linesIn_append, linesOf, List.filterMap_append]
  congr 1
  rcases result with _ | _ | text <;> by_cases hsame : stream' = stream <;>
    simp [linesIn, SelectResult.output?, deliveredLine, hsame]

/-- Both pipes are accounted for. -/
def Sys.Accounted (ls : List Label) (s : Sys) : Prop :=
  ∀ stream, (s.pipe stream).Accounted (arrivedOn stream ls) (linesOf stream (linesIn s.selected))

section Run

variable {cfg : Config} {s t : Sys} {ls : List Label}

/-- A turn in which a stream's branch completes. -/
private theorem Sys.Accounted.select (h : s.Accounted ls) (stream : Stream)
    {result : Option (Except IoError String)} {w : Oracle}
    (hready : (s.pipe stream).nextLine.1 = some result)
    (hthis : t.pipe stream = (s.pipe stream).nextLine.2.dropFuture)
    (hother : ∀ other, other ≠ stream →
      (t.pipe other).Accounted (arrivedOn other ls) (linesOf other (linesIn s.selected)))
    (hselected : t.selected = s.selected ++ [.line stream result]) :
    t.Accounted (ls ++ [.driver w]) := by
  intro stream'
  rw [arrivedOn_append, hselected, linesOf_select]
  by_cases hsame : stream = stream'
  · subst hsame
    simpa [Label.bytesOn, hthis] using (h stream).complete hready
  · simpa [Label.bytesOn, hsame] using hother stream' (fun heq => hsame heq.symm)

/-- A turn or a step that delivers no line. -/
theorem Sys.Accounted.silent {l : Label} (hsilent : ∀ stream, l.bytesOn stream = [])
    (hpipes : ∀ stream, (t.pipe stream).Accounted (arrivedOn stream ls)
      (linesOf stream (linesIn s.selected)))
    (hlines : linesIn t.selected = linesIn s.selected) : t.Accounted (ls ++ [l]) := by
  intro stream
  rw [arrivedOn_append, hsilent, List.append_nil, hlines]
  exact hpipes stream

theorem Sys.Accounted.frame (h : s.Accounted ls) {l : Label}
    (hsilent : ∀ stream, l.bytesOn stream = []) (hpipe : ∀ stream, t.pipe stream = s.pipe stream)
    (hselected : t.selected = s.selected) : t.Accounted (ls ++ [l]) :=
  .silent hsilent (fun stream => (hpipe stream).symm ▸ h stream) (congrArg linesIn hselected)

/-- A branch that waits is not the one that completes. -/
theorem Pipe.Waits.not_ready {p : Pipe} {done : Bool} (h : p.Waits done) :
    p.ready done = false := by
  rcases h with h | h <;> simp [Pipe.ready, h]

theorem Sys.Accounted.driver {w : Oracle} (h : s.Accounted ls)
    (hkeeps : s.KeepsPartialLines (.driver w)) (hmove : s.DriverMove cfg t) :
    t.Accounted (ls ++ [.driver w]) := by
  have hsilent : ∀ stream, (Label.driver w).bytesOn stream = [] := fun _ => rfl
  cases hmove with
  | op w' o k hctl =>
      have hleaves := s.act_leaves cfg w' o
      exact h.frame hsilent hleaves.pipe hleaves.selected
  | leave v hctl hended => exact h.frame hsilent (fun stream => by cases stream <;> rfl) rfl
  | pending v hctl hended hout herr =>
      refine .silent hsilent (fun stream => ?_) rfl
      cases stream with
      | stdout => exact (h .stdout).polled hout
      | stderr => exact (h .stderr).polled herr
  | stdout v result hctl hended hdone hready =>
      have hcompletes : s.stdout.ready v.stdoutDone = true := by simp [Pipe.ready, hdone, hready]
      have hheld : s.stderr.held = [] := by
        simpa [KeepsPartialLines, hctl, hcompletes] using hkeeps
      refine h.select .stdout hready rfl ?_ rfl
      intro other hother
      cases other with
      | stdout => exact absurd rfl hother
      | stderr => exact (h .stderr).dropFuture hheld
  | stderr v result hctl hended hdone hout hready =>
      have hcompletes : s.stderr.ready v.stderrDone = true := by simp [Pipe.ready, hdone, hready]
      have hheld : (s.stdout.polled v.stdoutDone).held = [] := by
        simpa [KeepsPartialLines, hctl, hout.not_ready, hcompletes] using hkeeps
      refine h.select .stderr hready rfl ?_ rfl
      intro other hother
      cases other with
      | stdout => exact ((h .stdout).polled hout).dropFuture hheld
      | stderr => exact absurd rfl hother
  | exit v outcome hctl hended hdone hout herr hready =>
      have hheld : (s.stdout.polled v.stdoutDone).held = [] ∧
          (s.stderr.polled v.stderrDone).held = [] := by
        simpa [KeepsPartialLines, hctl, hout.not_ready, herr.not_ready, hdone, hready,
          Oneshot.isSent] using hkeeps
      refine .silent hsilent (fun stream => ?_) ((linesIn_append ..).trans (List.append_nil _))
      cases stream with
      | stdout => exact ((h .stdout).polled hout).dropFuture hheld.1
      | stderr => exact ((h .stderr).polled herr).dropFuture hheld.2

theorem Sys.Accounted.wait {c : WaitChoice} {w : Oracle} (h : s.Accounted ls)
    (hmove : s.WaitMove cfg t) : t.Accounted (ls ++ [.wait c w]) := by
  refine h.frame (fun _ => rfl) (fun stream => ?_) hmove.channel_cases.1
  cases hmove <;> cases stream <;> rfl

theorem Sys.Accounted.world {l : Label} (h : s.Accounted ls) (hmove : s.WorldMove l t) :
    t.Accounted (ls ++ [l]) := by
  cases hmove with
  | arrive stream bytes hchild hfin =>
      intro stream'
      rw [arrivedOn_append, setPipe_selected]
      by_cases hsame : stream = stream'
      · subst hsame
        simpa [Label.bytesOn] using (h stream).arrive hfin bytes
      · simpa [Label.bytesOn, hsame, s.pipe_setPipe_of_ne _ hsame] using h stream'
  | close stream how hchild hfin =>
      refine .silent (s := s) (fun _ => rfl) (fun stream' => ?_) (by rw [setPipe_selected])
      by_cases hsame : stream = stream'
      · subst hsame
        simpa using (h stream).close hfin how
      · simpa [s.pipe_setPipe_of_ne _ hsame] using h stream'
  | group l g hl hchild hgroup =>
      refine h.frame (fun _ => ?_) (fun stream => by cases stream <;> rfl) rfl
      cases l <;> first | rfl | cases hl
  | _ => exact h.frame (fun _ => rfl) (fun stream => by cases stream <;> rfl) rfl

/-- In a run that drops no half-read line, the lines sent for a stream that was
read without an error are, when the loop ends, the reference split of its
bytes. -/
theorem output_is_reference_split
    (hmeet : Transition.StepsMeet (Sys.step cfg) Sys.KeepsPartialLines (Sys.init cfg) ls)
    (hrun : Transition.run (Sys.step cfg) (Sys.init cfg) ls = some s)
    {v : LoopVars} (hctl : s.ctl = .top v) (hended : v.ended = true)
    (stream : Stream) (heof : (s.pipe stream).fin = some .eof) :
    linesOf stream (outputsOf s.log) = referenceLines (arrivedOn stream ls) := by
  have hs : Sys.Reachable cfg s := ⟨ls, hrun⟩
  have haccounted : s.Accounted ls := by
    refine Sys.run_induction (fun done u => u.Accounted done) hmeet hrun ?_ ?_
    · intro stream
      refine .reading [] [] ?_ Lines.Cut.nil rfl
      cases stream <;> rfl
    · intro done u l u' hu h hkeeps hstep
      cases Sys.step_by hstep with
      | driver w hdriver => exact h.driver hkeeps (Sys.driverStep_move hdriver)
      | wait c w hwait => exact h.wait (Sys.waitStep_move hwait)
      | world _ hworld => exact h.world hworld
  have hover : LoopOver s.selected := (tracked_of_top cfg s v hs hctl).loopOver hended
  have hlines : outputsOf s.log = linesIn s.selected := by
    calc outputsOf s.log
        = outputsOf s.sent := by rw [hs.merged.own, outputsOf_own]
      _ = linesIn s.selected := (hs.recorded (Or.inl ⟨v, hctl⟩)).outputs
  rw [hlines]
  exact (haccounted stream).over (hs.pipe_over stream (hover.1 stream)) heof

end Run

/-- Chunks arrive, each followed by some steps of the driver, and the child
leaves; the driver ends its loop. -/
def chunkRun (chunks : List (Stream × List UInt8 × Nat)) : List Label :=
  drive 12 ++ chunks.flatMap (fun (stream, bytes, n) => .arrive stream bytes :: drive n) ++
    leaveQuietly ++ drive 8

/-- A line of stdout arrives in two chunks, while stderr is silent. -/
def splitLineRun : List Label :=
  chunkRun [(.stdout, [0x61, 0x62], 1), (.stdout, [0x63, newline], 4),
    (.stderr, [0x78, newline], 4)]

theorem splitLineRun_runs :
    (Transition.run (Sys.step plainConfig) (Sys.init plainConfig) splitLineRun).isSome = true := by
  decide

def splitLineEnd : Sys := Transition.endOf _ _ splitLineRun splitLineRun_runs

theorem output_is_reference_split_quiet :
    linesOf .stdout (outputsOf splitLineEnd.log) = referenceLines [0x61, 0x62, 0x63, newline] :=
  output_is_reference_split (by decide)
    (Transition.run_endOf (Sys.init plainConfig) splitLineRun splitLineRun_runs) rfl rfl
    .stdout rfl

/-- A line of stderr arrives between the two chunks. -/
def tornLineRun : List Label :=
  chunkRun [(.stdout, [0x61, 0x62], 1), (.stderr, [0x78, newline], 4),
    (.stdout, [0x63, newline], 4)]

theorem tornLineRun_runs :
    (Transition.run (Sys.step plainConfig) (Sys.init plainConfig) tornLineRun).isSome = true := by
  decide

def tornLineEnd : Sys := Transition.endOf _ _ tornLineRun tornLineRun_runs

theorem output_torn :
    Sys.Reachable plainConfig tornLineEnd ∧
      (∃ v, tornLineEnd.ctl = .top v ∧ v.ended = true) ∧
      (∀ stream, (tornLineEnd.pipe stream).fin = some .eof) ∧
      linesOf .stdout (outputsOf tornLineEnd.log) = ["c"] ∧
      referenceLines (arrivedOn .stdout tornLineRun) = ["abc"] :=
  ⟨Transition.reachable_endOf _ _ tornLineRun_runs, ⟨_, rfl, rfl⟩,
    fun stream => by cases stream <;> rfl, by decide, by decide⟩

end Execra
