import Execra.Job.Course
import Execra.Job.History
import Execra.Job.Recording

/-!
Output against the exit. The driver takes the exit notification as soon as no
line is ready, whether or not the pipes have ended, and goes on to read them;
a line that comes then is sent and interpreted after `Exited`. When the child's
pipes deliver nothing once the exit is received, all output precedes it.
-/

namespace Execra

open Program

/-- No `OutputAppended` follows `Exited`. -/
def OutputFirst (log : List Event) : Prop :=
  log.Pairwise (fun e f => e.body.isExited = true → f.body.isOutput = false)

instance (log : List Event) : Decidable (OutputFirst log) :=
  inferInstanceAs (Decidable (log.Pairwise _))

theorem OutputFirst.snoc {log : List Event} (h : OutputFirst log) {e : Event}
    (hout : e.body.isOutput = true → exitsOf log = []) : OutputFirst (log ++ [e]) := by
  refine List.pairwise_append.mpr ⟨h, List.pairwise_singleton _ _, ?_⟩
  intro f hf e' he' hexit
  rw [List.mem_singleton.mp he']
  refine Bool.eq_false_iff.mpr (fun htrue => ?_)
  rw [exitsOf_eq_nil.mp (hout htrue) f hf] at hexit
  cases hexit

/-- The select loop has delivered no line after the exit. -/
def LateFree (rs : List SelectResult) : Prop :=
  rs.Pairwise (fun r r' => r.exit?.isSome → r'.output? = none)

theorem exitIn_eq_none {rs : List SelectResult} :
    exitIn rs = none ↔ ∀ r ∈ rs, r.exit? = none := List.findSome?_eq_none_iff

theorem LateFree.append {rs : List SelectResult} {r : SelectResult} (h : LateFree rs)
    (hlate : (exitIn rs).isSome → r.output? = none) : LateFree (rs ++ [r]) := by
  refine List.pairwise_append.mpr ⟨h, List.pairwise_singleton _ _, ?_⟩
  intro r' hr' last hlast hexit
  rw [List.mem_singleton.mp hlast]
  refine hlate (Option.isSome_iff_ne_none.mpr (fun hnone => ?_))
  rw [exitIn_eq_none.mp hnone r' hr'] at hexit
  cases hexit

/-- A line is delivered before the exit. -/
theorem LateFree.exitIn_none {rs : List SelectResult} {r : SelectResult}
    (h : LateFree (rs ++ [r])) (hline : r.output?.isSome) : exitIn rs = none := by
  refine exitIn_eq_none.mpr (fun r' hr' => ?_)
  by_contra hexit
  have hnone := (List.pairwise_append.mp h).2.2 r' hr' r (List.mem_singleton_self r)
    (Option.isSome_iff_ne_none.mpr hexit)
  rw [hnone] at hline
  cases hline

/-- The driver is about to send a line, or to hand one to its interpreter. -/
def Driver.forwards {α : Type} : Driver α → Bool
  | .op (.send e) _ => e.body.isOutput
  | .op (.onLine ..) _ => true
  | _ => false

def Driver.sends {α : Type} : Driver α → Bool
  | .op (.send _) _ => true
  | _ => false

/-- If no line comes late, lines are forwarded before the exit is announced,
and what is sent after it is sent when the loop is over. -/
private def orderCourse (cfg : Config) : Course cfg Unit where
  ghost _ _ g := g
  start := ()
  here p x := LateFree x.1.selected →
    (Driver.forwards p = true → exitsOf x.1.sent = []) ∧
    (Driver.sends p = true → exitsOf x.1.sent = [] ∨ LoopOver x.1.selected)
  bind f o k x h := by cases o <;> exact h
  top _ _ := True
  done _ := True

/-- The operations that neither forward a line nor announce the exit. -/
def Op.isQuiet : Op → Bool
  | .send e => !e.body.isOutput && !e.body.isExited
  | .onLine .. => false
  | _ => true

section Held

variable {cfg : Config} {ended : Prop}

/-- The exit is not announced, or the loop is ended. -/
private def Early (ended : Prop) {α : Type} (_ : α) (x : Ledger × Unit) : Prop :=
  LateFree x.1.selected → exitsOf x.1.sent = [] ∨ ended ∧ LoopOver x.1.selected

private theorem here_of_aside {α : Type} {p : Driver α} (hforwards : Driver.forwards p = false)
    (hsends : Driver.sends p = false) (x : Ledger × Unit) : (orderCourse cfg).here p x :=
  fun _ => ⟨fun h => absurd (hforwards.symm.trans h) (by simp),
    fun h => absurd (hsends.symm.trans h) (by simp)⟩

private theorem stays_of_quiet {o : Op} (ho : o.isQuiet = true) :
    (orderCourse cfg).Stays (Early ended) o := by
  intro β k state x hx
  refine ⟨fun hlate => ⟨fun hforwards => ?_, fun _ => (hx hlate).imp id And.right⟩, fun w => ?_⟩
  · cases o with
    | send e => simp [Op.isQuiet, show e.body.isOutput = true from hforwards] at ho
    | onLine ctx line => cases ho
    | _ => cases hforwards
  · change Early ended state ((Ledger.act cfg w o x.1).2, _)
    unfold Early
    rw [Ledger.act_selected]
    have hsent : exitsOf (Ledger.act cfg w o x.1).2.sent = exitsOf x.1.sent := by
      cases o with
      | send e =>
          have hquiet : e.body.isExited = false := by
            simp only [Op.isQuiet, Bool.and_eq_true, Bool.not_eq_true'] at ho
            exact ho.2
          have hnone : exitsOf [e] = [] := exitsOf_eq_nil.mpr (by simpa using hquiet)
          simp [Ledger.act, exitsOf_append, hnone]
      | spawnChild => simp only [Ledger.act]; cases w.spawned <;> rfl
      | _ => rfl
    rw [hsent]
    exact hx

private theorem along_quiet {α : Type} {Q : α → Ledger × Unit → Prop} {o : Op}
    (ho : o.isQuiet = true) (k : o.Ans → Driver α) (x : Ledger × Unit) (hx : Early ended () x)
    (hk : ∀ a y, Early ended () y → (orderCourse cfg).along (k a) Q y) :
    (orderCourse cfg).along (.op o .ret >>= k) Q x := by
  obtain ⟨hhere, hact⟩ := stays_of_quiet ho k {} x hx
  exact ⟨hhere, fun w => hk _ _ (hact w)⟩

private theorem emit_early {α : Type} {Q : α → Ledger × Unit → Prop} {body : EventBody}
    (hout : body.isOutput = false) (hexit : body.isExited = false) (time : SystemTime)
    (k : Unit → Driver α) (x : Ledger × Unit) (hx : Early ended () x)
    (hk : ∀ y, Early ended () y → (orderCourse cfg).along (k ()) Q y) :
    (orderCourse cfg).along (emit cfg body time >>= k) Q x :=
  along_quiet (o := .send _) (by simp [Op.isQuiet, hout, hexit]) _ x hx
    (fun _ y hy => along_quiet (o := .insertEvent _) rfl _ y hy (fun _ z hz => hk z hz))

theorem EventBody.inside_of_metadata {body : EventBody} (h : body.isMetadata = true) :
    body.isExited = false := by
  cases body <;> first | rfl | cases h

/-- Handling an event of the interpreter forwards no line and announces no exit. -/
private theorem order_reaction (o : Op) (ho : o.isReaction = true) :
    (orderCourse cfg).Stays (fun _ => Early ended ()) o := by
  apply @stays_of_quiet cfg ended
  cases o with
  | send e => simp [Op.isQuiet, EventBody.kept_of_metadata ho, EventBody.inside_of_metadata ho]
  | onLine ctx line => cases ho
  | _ => rfl

private theorem order_keeps : (orderCourse cfg).Keeps (Early ended ()) :=
  Course.Keeps.of_stays order_reaction

private theorem order_finalizeJob (outcome : Outcome) (x : Ledger × Unit)
    (hx : Early ended () x) :
    (orderCourse cfg).along (finalizeJob cfg outcome) (fun _ _ => True) x := by
  refine along_quiet rfl _ x hx (fun _ x hx => along_quiet rfl _ x hx (fun _ x hx => ?_))
  refine along_quiet rfl _ x hx (fun _ x hx => along_quiet rfl _ x hx (fun time x hx => ?_))
  exact emit_early rfl rfl time _ x hx (fun y hy => along_quiet rfl _ y hy (fun _ _ _ => trivial))

/-- Before the loop nothing is forwarded, and no exit announced. -/
private theorem order_launch :
    (orderCourse cfg).along (spawnJob cfg) (orderCourse cfg).handover (Ledger.init cfg, ()) := by
  have hinit : Early False () (Ledger.init cfg, ()) := fun _ => Or.inl rfl
  refine emit_early rfl rfl cfg.createdAt _ _ hinit (fun x hx => ?_)
  refine along_quiet rfl _ x hx (fun permitted x hx => ?_)
  cases permitted with
  | false => exact trivial
  | true =>
      refine along_quiet rfl _ x hx (fun start x hx => ?_)
      have hopen : (orderCourse cfg).along (openRawLog cfg) (Early False) x := by
        unfold openRawLog
        split
        · exact along_quiet rfl _ x hx (fun _ _ hy => hy)
        · exact hx
      refine Course.along_seq _ _ _ x hopen (fun _ x hx => along_quiet rfl _ x hx ?_)
      intro spawned x hx
      cases spawned with
      | error e =>
          exact Course.along_seq _ _ _ x (order_finalizeJob _ x hx) (fun _ _ _ => trivial)
      | ok pid =>
          refine along_quiet rfl _ x hx (fun time x hx => ?_)
          refine emit_early rfl rfl time _ x hx (fun x hx => ?_)
          refine along_quiet rfl _ x hx (fun _ x hx => along_quiet rfl _ x hx (fun _ x hx => ?_))
          exact along_quiet rfl _ x hx (fun _ x hx =>
            along_quiet rfl _ x hx (fun _ _ _ => trivial))

/-- A line is forwarded in the turn that delivers it, before any exit. -/
private theorem order_line (v : LoopVars) (stream : Stream) (text : String)
    (x : Ledger × Unit) (hx : Early False () x) :
    (orderCourse cfg).along (processLine cfg v.start stream text v.state) (Early False) x := by
  have hearly : ∀ {y : Ledger × Unit}, Early False () y →
      LateFree y.1.selected → exitsOf y.1.sent = [] :=
    fun hy hlate => (hy hlate).elim id (fun h => h.1.elim)
  refine along_quiet rfl _ x hx (fun time x hx => along_quiet rfl _ x hx (fun _ x hx => ?_))
  have hkeep : (orderCourse cfg).along (rememberRaw cfg (rawLine stream text)) (Early False) x := by
    unfold rememberRaw
    split
    · exact along_quiet rfl _ x hx (fun _ _ hy => hy)
    · exact hx
  refine Course.along_seq _ _ _ x hkeep (fun _ x hx => ?_)
  refine ⟨fun hlate => ⟨fun _ => hearly hx hlate, fun _ => Or.inl (hearly hx hlate)⟩, fun _ => ?_⟩
  have hsent : Early False v.state
      (x.1.send { job := cfg.id, body := .outputAppended stream text, time }, x.2) := by
    intro hlate
    refine Or.inl ?_
    rw [Ledger.send_sent, exitsOf_append, hearly hx hlate]
    rfl
  have hline : ∀ ctx line, (orderCourse cfg).Stays (Early False) (.onLine ctx line) := by
    intro ctx line β k state y hy
    exact ⟨fun hlate => ⟨fun _ => hearly hy hlate, nofun⟩, fun _ => hy⟩
  exact order_keeps.passes.interpretLine hline v.start { stream, text, time } v.state _ hsent

private theorem order_held : (orderCourse cfg).Held where
  launch := order_launch
  turn v x r htracked hlife _ _ hoffer := by
    cases r with
    | line stream result =>
        rcases result with _ | _ | text
        · exact trivial
        · exact trivial
        · have hearly : Early False () (x.1.select (.line stream (some (.ok text))), x.2) :=
            fun hlate => Or.inl (hlife.exitsOf_nil (hlate.exitIn_none rfl))
          exact Course.along_seq _ _ _ _ (order_line v stream text _ hearly)
            (fun _ _ _ => trivial)
    | exit result =>
        obtain ⟨hfirst, -⟩ := hoffer
        have hnone : exitIn x.1.selected = none := by simpa [hfirst] using htracked.exited
        have hnil : exitsOf x.1.sent = [] := hlife.exitsOf_nil hnone
        have hbefore : Early False () (x.1.select (.exit result), x.2) := fun _ => Or.inl hnil
        refine along_quiet rfl _ _ hbefore (fun time y hy => ?_)
        refine ⟨fun hlate => ⟨nofun, fun _ => (hy hlate).imp id And.right⟩, fun _ => ?_⟩
        refine ⟨here_of_aside rfl rfl _, fun _ => ⟨here_of_aside rfl rfl _, fun _ => ?_⟩⟩
        exact ⟨here_of_aside rfl rfl _, fun _ => trivial⟩
  finish v x htracked _ hended := by
    have hover : Early True () x := fun _ => Or.inr ⟨trivial, htracked.loopOver hended⟩
    have hexit := (@order_keeps cfg True).passes.runOnExit (fun _ _ => stays_of_quiet rfl)
      v.start (finalExitCode v.exitStatus) v.state x hover
    refine Course.along_seq _ _ _ x hexit (fun state x hx => ?_)
    have hclose : (orderCourse cfg).along (exitOpenPhases cfg state) (Early True) x :=
      order_keeps.exitOpenPhases state x hx
    refine Course.along_seq _ _ _ x hclose (fun state x hx => along_quiet rfl _ x hx ?_)
    exact fun cancelled x hx => order_finalizeJob _ x hx

end Held

/-! The pipes. -/

/-- There is nothing to read, and the pending future holds nothing. -/
def Pipe.Spent (p : Pipe) : Prop := p.held = [] ∧ p.avail = []

theorem Pipe.Over.spent {p : Pipe} (h : p.Over) : p.Spent := h.2

theorem Pipe.Spent.dropFuture {p : Pipe} (h : p.Spent) : p.dropFuture.Spent := ⟨rfl, h.2⟩

/-- A poll of a spent pipe returns no line. -/
theorem Pipe.Spent.poll {p q : Pipe} {r : Option (Option (Except IoError String))}
    (h : p.Spent) (hpoll : p.Poll r q) : q.Spent ∧ ∀ text, r ≠ some (some (.ok text)) := by
  obtain ⟨hheld, havail⟩ := h
  cases hpoll with
  | terminated _ hline => rw [havail] at hline; cases hline
  | pending _ _ _ hheld' havail' => exact ⟨⟨by simp [hheld', hheld, havail], havail'⟩, nofun⟩
  | unterminated _ _ _ hrest => exact absurd (by simp [hheld, havail]) hrest
  | eof _ _ _ hheld' havail' => exact ⟨⟨hheld', havail'⟩, nofun⟩
  | failed _ _ _ hheld' havail' => exact ⟨⟨hheld', havail'⟩, nofun⟩

theorem Pipe.Spent.polled {p : Pipe} (h : p.Spent) (done : Bool) : (p.polled done).Spent := by
  unfold Pipe.polled
  split
  · exact h
  · exact (h.poll p.nextLine_poll).1

/-- Dropping a pending future leaves nothing of what had arrived. -/
theorem Pipe.Waits.spent {p : Pipe} {done : Bool} (h : p.Waits done)
    (hdone : done = true → p.Spent) : (p.polled done).dropFuture.Spent := by
  unfold Pipe.polled
  split
  · next htrue => exact (hdone htrue).dropFuture
  · next hfalse =>
      have hpoll := p.nextLine_poll
      rw [h.resolve_left hfalse] at hpoll
      cases hpoll with
      | pending _ _ _ _ havail => exact ⟨rfl, havail⟩

/-- A spent pipe delivers no line. -/
theorem Pipe.Spent.output_none {p : Pipe} (h : p.Spent) (stream : Stream)
    {result : Option (Except IoError String)} (hready : p.nextLine.1 = some result) :
    SelectResult.output? (.line stream result) = none := by
  have hnone := (h.poll p.nextLine_poll).2
  rcases result with _ | _ | text
  · rfl
  · rfl
  · exact absurd hready (hnone text)

def Oneshot.isTaken {α : Type} : Oneshot α → Bool
  | .taken _ => true
  | _ => false

/-- No byte of the child becomes readable once the driver has received the exit. -/
def Sys.SilentAfterExit (s : Sys) : Label → Prop
  | .arrive _ bytes => s.exitRx.isTaken = true → bytes = []
  | _ => True

instance (s : Sys) : (l : Label) → Decidable (s.SilentAfterExit l)
  | .arrive _ bytes => inferInstanceAs (Decidable (s.exitRx.isTaken = true → bytes = []))
  | .driver _ | .wait _ _ | .cancelCheck | .cancelToken | .pollHandle | .close _ _
  | .exitLeader _ _ | .failWait _ | .exitDescendant _ _ | .fork _ _ | .elapse _ =>
      inferInstanceAs (Decidable True)

/-- No line was delivered after the exit, and none is left. -/
structure Sys.Drained (s : Sys) : Prop where
  late : LateFree s.selected
  spent : (exitIn s.selected).isSome → ∀ stream, (s.pipe stream).Spent

section Run

variable {cfg : Config} {s t : Sys}

theorem Sys.Drained.frame (h : s.Drained) (hsel : t.selected = s.selected)
    (hpipe : (exitIn s.selected).isSome → ∀ stream, (s.pipe stream).Spent →
      (t.pipe stream).Spent) : t.Drained where
  late := hsel ▸ h.late
  spent hexit stream := by
    rw [hsel] at hexit
    exact hpipe hexit stream (h.spent hexit stream)

/-- A turn in which a stream's branch completes. -/
private theorem Sys.Drained.line (h : s.Drained) (stream : Stream)
    {result : Option (Except IoError String)}
    (hready : (s.pipe stream).nextLine.1 = some result)
    (hsel : t.selected = s.selected ++ [.line stream result])
    (hpipe : ∀ stream', (s.pipe stream').Spent → (t.pipe stream').Spent) : t.Drained := by
  have hexit : exitIn t.selected = exitIn s.selected := by
    simp [hsel, exitIn_append, SelectResult.exit?]
  refine ⟨?_, fun hsome stream' => hpipe stream' (h.spent (hexit ▸ hsome) stream')⟩
  rw [hsel]
  exact h.late.append (fun hsome => (h.spent hsome stream).output_none stream hready)

private theorem Sys.Drained.driver (hs : Sys.Reachable cfg s) (h : s.Drained)
    (hmove : s.DriverMove cfg t) : t.Drained := by
  have hpoll : ∀ stream, (s.pipe stream).Spent → (s.pipe stream).nextLine.2.dropFuture.Spent :=
    fun stream hspent => (hspent.poll (s.pipe stream).nextLine_poll).1.dropFuture
  cases hmove with
  | op w o k hctl =>
      have hleaves := s.act_leaves cfg w o
      refine h.frame hleaves.selected (fun _ stream hspent => ?_)
      have hpipe : (s.act cfg w o).2.pipe stream = s.pipe stream := hleaves.pipe stream
      exact hpipe ▸ hspent
  | leave v hctl hended =>
      exact h.frame rfl (fun _ stream hspent => by cases stream <;> exact hspent)
  | pending v hctl hended hout herr =>
      exact h.frame rfl (fun _ stream hspent => by cases stream <;> exact hspent.polled _)
  | stdout v result hctl hended hdone hready =>
      refine h.line .stdout hready rfl (fun stream hspent => ?_)
      cases stream with
      | stdout => exact hpoll .stdout hspent
      | stderr => exact hspent.dropFuture
  | stderr v result hctl hended hdone hout hready =>
      refine h.line .stderr hready rfl (fun stream hspent => ?_)
      cases stream with
      | stdout => exact (hspent.polled _).dropFuture
      | stderr => exact hpoll .stderr hspent
  | exit v outcome hctl hended hdone hout herr hready =>
      have htracked : v.Tracks s.selected := tracked_of_top cfg s v hs hctl
      refine ⟨h.late.append (fun _ => rfl), fun _ stream => ?_⟩
      cases stream with
      | stdout =>
          refine hout.spent (fun htrue => ?_)
          exact (hs.pipe_over .stdout ((htracked.done .stdout).symm.trans htrue)).spent
      | stderr =>
          refine herr.spent (fun htrue => ?_)
          exact (hs.pipe_over .stderr ((htracked.done .stderr).symm.trans htrue)).spent

private theorem Sys.Drained.step {l : Label} (hs : Sys.Reachable cfg s) (h : s.Drained)
    (hsilent : s.SilentAfterExit l) (hstep : s.step cfg l = some t) : t.Drained := by
  cases Sys.step_by hstep with
  | driver w hmove => exact h.driver hs (Sys.driverStep_move hmove)
  | wait c w hmove =>
      refine h.frame (Sys.waitStep_move hmove).channel_cases.1 (fun _ stream hspent => ?_)
      cases Sys.waitStep_move hmove <;> cases stream <;> exact hspent
  | world l hmove =>
      cases hmove with
      | arrive stream bytes hchild hfin =>
          refine h.frame (by rw [setPipe_selected]) (fun hexit stream' hspent => ?_)
          obtain ⟨outcome, houtcome⟩ := Option.isSome_iff_exists.mp hexit
          have htaken : s.exitRx.isTaken = true := by
            rw [(hs.delivered_of_exit houtcome).1]; rfl
          have hnone : bytes = [] := hsilent htaken
          by_cases hsame : stream = stream'
          · subst hsame
            exact ⟨by simpa [Pipe.arrive] using hspent.1,
              by simpa [Pipe.arrive, hnone] using hspent.2⟩
          · rw [s.pipe_setPipe_of_ne _ hsame]
            exact hspent
      | close stream how hchild hfin =>
          refine h.frame (by rw [setPipe_selected]) (fun _ stream' hspent => ?_)
          by_cases hsame : stream = stream'
          · subst hsame
            exact ⟨by simpa [Pipe.close] using hspent.1, by simpa [Pipe.close] using hspent.2⟩
          · rw [s.pipe_setPipe_of_ne _ hsame]
            exact hspent
      | _ => exact h.frame rfl (fun _ stream hspent => by cases stream <;> exact hspent)

/-- `Exited` has not been sent as long as the driver has not received an exit. -/
theorem Sys.Reachable.exitsOf_nil (hs : Sys.Reachable cfg s)
    (hnone : exitIn s.selected = none) : exitsOf s.log = [] := by
  rw [← exitsOf_own, ← hs.merged.own]
  exact hs.inLifecycle.exitsOf_nil hnone

/-- Where the driver stands, if no line came late. -/
private theorem order_here (hs : Sys.Reachable cfg s) (hlate : LateFree s.selected) {o : Op}
    {k : o.Ans → Driver Next} (hctl : s.ctl = .run (.op o k)) :
    (Driver.forwards (.op o k) = true → exitsOf s.log = []) ∧
      (Driver.sends (.op o k) = true → exitsOf s.log = [] ∨ LoopOver s.selected) := by
  obtain ⟨g, hat⟩ := order_held.holds hs
  rw [hctl] at hat
  rw [← exitsOf_own, ← hs.merged.own]
  exact hat.1 hlate

private theorem OutputFirst.step {l : Label} (hs : Sys.Reachable cfg s) (h : OutputFirst s.log)
    (hlate : LateFree s.selected) (hstep : s.step cfg l = some t) : OutputFirst t.log := by
  cases Sys.step_by hstep with
  | driver w hmove =>
      rcases Sys.driverStep_cases hmove with ⟨o, k, hctl, rfl⟩ | ⟨v, hctl, hmove'⟩
      · by_cases ho : o.emits = false
        · have hlog : (s.act cfg w o).2.log = s.log := (s.act_history cfg w ho).1
          change OutputFirst (s.act cfg w o).2.log
          rw [hlog]
          exact h
        · cases o with
          | send e => exact h.snoc (order_here hs hlate hctl).1
          | insertEvent e => exact h
          | _ => exact absurd rfl ho
      · cases hmove' with
        | op w' o k hctl' => rw [hctl] at hctl'; cases hctl'
        | _ => exact h
  | wait c w hmove =>
      cases Sys.waitStep_move hmove with
      | send time hpc => exact h.snoc nofun
      | _ => exact h
  | world l hmove => exact hmove.tasks.log ▸ h

/-- The driver is in the turn of its loop that delivered a line. -/
def Sys.handlesLine (s : Sys) : Bool := (s.selected.getLast?.bind SelectResult.output?).isSome

/-- The order the exit imposes on what has been sent and on what is about to be. -/
structure Sys.EndsInOrder (s : Sys) : Prop where
  output : OutputFirst s.log
  /-- `Exited` has not been sent while a line is sent and interpreted, and what
  its interpretation returns is sent. -/
  line : s.handlesLine = true → exitsOf s.log = []
  onLine : ∀ ctx line k, s.ctl = .run (.op (.onLine ctx line) k) → exitsOf s.log = []
  /-- What the driver sends after `Exited` it sends when its loop is ended: for
  `on_exit`, for the phases still open, and `Finalized`. -/
  driver : ∀ e k, s.ctl = .run (.op (.send e) k) → exitsOf s.log = [] ∨ LoopOver s.selected
  wait : ∀ time, s.wait.pc = .cancelSend time → exitsOf s.log = []

theorem Sys.Drained.handlesLine (h : s.Drained) (hline : s.handlesLine = true) :
    exitIn s.selected = none := by
  obtain ⟨r, hlast, hout⟩ : ∃ r, s.selected.getLast? = some r ∧ r.output?.isSome := by
    unfold Sys.handlesLine at hline
    cases hlast : s.selected.getLast? with
    | none => rw [hlast] at hline; cases hline
    | some r => rw [hlast] at hline; exact ⟨r, rfl, hline⟩
  obtain ⟨rs, hsplit⟩ := List.getLast?_eq_some_iff.mp hlast
  have hlate := h.late
  rw [hsplit] at hlate ⊢
  rw [exitIn_append, hlate.exitIn_none hout]
  cases r with
  | line stream result => rfl
  | exit result => cases hout

/-- In a run in which nothing more becomes readable once the driver has
received the exit, all output and all that is made of it precedes `Exited`. -/
theorem output_before_exit {ls : List Label}
    (hmeet : Transition.StepsMeet (Sys.step cfg) Sys.SilentAfterExit (Sys.init cfg) ls)
    (hrun : Transition.run (Sys.step cfg) (Sys.init cfg) ls = some s) : s.EndsInOrder := by
  have hs : Sys.Reachable cfg s := ⟨ls, hrun⟩
  obtain ⟨hdrained, hfirst⟩ : s.Drained ∧ OutputFirst s.log := by
    refine Sys.run_invariant (I := fun s => s.Drained ∧ OutputFirst s.log) hmeet hrun
      ⟨⟨List.Pairwise.nil, nofun⟩, List.Pairwise.nil⟩ ?_
    intro s l t hs _ ⟨hdrained, hfirst⟩ hsilent hstep
    exact ⟨hdrained.step hs hsilent hstep, hfirst.step hs hdrained.late hstep⟩
  refine ⟨hfirst, fun hline => hs.exitsOf_nil (hdrained.handlesLine hline), ?_, ?_, ?_⟩
  · exact fun ctx line k hctl => (order_here hs hdrained.late hctl).1 rfl
  · exact fun e k hctl => (order_here hs hdrained.late hctl).2 rfl
  · intro time hpc
    refine hs.exitsOf_nil (Option.eq_none_iff_forall_ne_some.mpr (fun outcome hexit => ?_))
    have hdelivered := (hs.delivered_of_exit hexit).2
    rw [hpc] at hdelivered
    cases hdelivered

end Run

/-- The child writes a line, leaves both pipes open and exits; the driver takes
the line and the exit. -/
def exitTaken : List Label :=
  drive 12 ++ [.arrive .stdout [0x78, newline], .exitLeader .own (.exited 0), .wait .go {},
    .wait .child {}, .wait .go {}] ++ drive 10

/-- The pipes close without another byte. -/
def inOrderRun : List Label := exitTaken ++ [.close .stdout .eof, .close .stderr .eof] ++ drive 12

theorem inOrderRun_runs :
    (Transition.run (Sys.step plainConfig) (Sys.init plainConfig) inOrderRun).isSome = true := by
  decide

def inOrderEnd : Sys := Transition.endOf _ _ inOrderRun inOrderRun_runs

theorem output_before_exit_inOrder :
    inOrderEnd.log.map (fun e => e.body.kind) =
      ["job_created", "job_started", "output_appended", "exited", "finalized"] ∧
    inOrderEnd.EndsInOrder :=
  ⟨by decide, output_before_exit (by decide)
    (Transition.run_endOf (Sys.init plainConfig) inOrderRun inOrderRun_runs)⟩

/-- A process the child left behind writes another line. -/
def lateRun : List Label := exitTaken ++ [.arrive .stdout [0x79, newline]] ++ drive 6

theorem lateRun_runs :
    (Transition.run (Sys.step plainConfig) (Sys.init plainConfig) lateRun).isSome = true := by
  decide

def lateEnd : Sys := Transition.endOf _ _ lateRun lateRun_runs

theorem output_after_exit : Sys.Reachable plainConfig lateEnd ∧ ¬ lateEnd.EndsInOrder := by
  refine ⟨Transition.reachable_endOf _ _ lateRun_runs, fun h => ?_⟩
  exact absurd h.output (by decide)

end Execra
