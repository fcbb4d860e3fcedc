import Execra.Foundation.Fairness
import Execra.Job.Agreement

/-!
Whose turn it is. A job among others is a system that may rest, and what a turn of
it leaves alone depends on whose turn it was: the driver's program is the driver's,
the place of the wait task that task's, and a pipe that has ended is emptied by
nobody but the driver. At the head of its loop the driver then has less to do after
every turn, until only the exit is missing.
-/

namespace Execra

open Transition

/-- The steps of the driver. -/
def Label.ofDriver : Label → Prop
  | .driver _ => True
  | _ => False

/-- The steps of the wait task. -/
def Label.ofWait : Label → Prop
  | .wait _ _ => True
  | _ => False

/-- The driver's turns, in a system that may rest. -/
abbrev driverTurn : Option Label → Prop := taking Label.ofDriver

abbrev waitTurn : Option Label → Prop := taking Label.ofWait

theorem eq_driver_of_turn {l : Option Label} (h : driverTurn l) : ∃ w, l = some (.driver w) := by
  obtain ⟨own, rfl, hown⟩ := eq_of_taking h
  cases own with
  | driver w => exact ⟨w, rfl⟩
  | _ => exact hown.elim

theorem eq_wait_of_turn {l : Option Label} (h : waitTurn l) : ∃ c w, l = some (.wait c w) := by
  obtain ⟨own, rfl, hown⟩ := eq_of_taking h
  cases own with
  | wait c w => exact ⟨c, w, rfl⟩
  | _ => exact hown.elim

/-- `child.wait()` is ready, and neither pipe will deliver more than what it
holds. -/
structure Sys.Quit (s : Sys) : Prop where
  reaped : s.group.waitStatus.isSome
  ended : ∀ stream, (s.pipe stream).fin.isSome

/-! What the other tasks leave alone. -/

section Frames

variable {cfg : Config} {s t : Sys} {l : Option Label}

/-- A turn of the job, by whose it is. -/
theorem stuttering_cases (hstep : stuttering (Sys.step cfg) s l = some t) :
    t = s ∨ ∃ own, l = some own ∧ s.StepBy cfg own t := by
  cases l with
  | none => exact Or.inl (Option.some.inj hstep).symm
  | some own => exact Or.inr ⟨own, rfl, Sys.step_by hstep⟩

/-- The driver's program is its own. -/
theorem ctl_of_rest (hstep : stuttering (Sys.step cfg) s l = some t) (hl : ¬driverTurn l) :
    t.ctl = s.ctl := by
  rcases stuttering_cases hstep with rfl | ⟨own, rfl, hby⟩
  · rfl
  · cases hby with
    | driver w h => exact absurd trivial hl
    | wait c w h => exact (Sys.waitStep_move h).frame.1
    | world _ h => exact h.tasks.ctl

/-- And so is what the wait task holds, once the task is there. -/
theorem wait_of_rest (hs : Sys.Reachable cfg s) (ht : Sys.Reachable cfg t)
    (hstep : stuttering (Sys.step cfg) s l = some t) (hl : ¬waitTurn l)
    (hpc : s.wait.pc ≠ .unspawned) : t.wait = s.wait := by
  rcases stuttering_cases hstep with rfl | ⟨own, rfl, hby⟩
  · rfl
  · cases hby with
    | driver w h =>
        rcases (Sys.driverStep_move h).wait_cases ht with ⟨hsame, -⟩ | ⟨pid, hnone, -⟩
        · exact hsame
        · cases hs.tasked with
          | unspawned _ hinit => exact absurd (by rw [hinit]) hpc
          | spawned _ _ hone => rw [hone] at hnone; cases hnone
    | wait c w h => exact absurd trivial hl
    | world _ h => exact h.tasks.wait

theorem Pipe.nextLine_fin (p : Pipe) : p.nextLine.2.fin = p.fin := by
  have hpoll := p.nextLine_poll
  generalize p.nextLine.1 = result at hpoll
  cases hpoll <;> assumption

theorem Pipe.polled_fin (p : Pipe) (done : Bool) : (p.polled done).fin = p.fin := by
  cases done <;> simp [Pipe.polled, Pipe.nextLine_fin]

/-- What the driver does to the pipes and to the group. -/
theorem Sys.DriverMove.ends (h : s.DriverMove cfg t) :
    t.group = s.group ∧ ∀ stream, (t.pipe stream).fin = (s.pipe stream).fin := by
  cases h with
  | op w o k hctl =>
      have hleaves := s.act_leaves cfg w o
      exact ⟨hleaves.group, fun stream => congrArg Pipe.fin (hleaves.pipe stream)⟩
  | leave v hctl hended => exact ⟨rfl, fun stream => by cases stream <;> rfl⟩
  | pending v hctl hended hout herr | exit v outcome hctl hended hdone hout herr hready =>
      refine ⟨rfl, fun stream => ?_⟩
      cases stream with
      | stdout => exact s.stdout.polled_fin _
      | stderr => exact s.stderr.polled_fin _
  | stdout v result hctl hended hdone hready =>
      refine ⟨rfl, fun stream => ?_⟩
      cases stream with
      | stdout => exact s.stdout.nextLine_fin
      | stderr => rfl
  | stderr v result hctl hended hdone hout hready =>
      refine ⟨rfl, fun stream => ?_⟩
      cases stream with
      | stdout => exact s.stdout.polled_fin _
      | stderr => exact s.stderr.nextLine_fin

/-- A reaped child stays reaped. -/
theorem Sys.StepBy.waitStatus {own : Label} (h : s.StepBy cfg own t)
    (hready : s.group.waitStatus.isSome) : t.group.waitStatus.isSome := by
  cases h with
  | driver w h => rwa [(Sys.driverStep_move h).ends.1]
  | wait c w h =>
      cases Sys.waitStep_move h with
      | terminate hpc =>
          cases hgroup : s.wait.procGroup <;>
            simpa [Sys.waitAt, terminateChild, hgroup, Group.killpg, Group.startKill] using hready
      | kill branch hpc =>
          cases hgroup : s.wait.procGroup <;>
            simpa [Sys.waitAt, killChild, hgroup, Group.killpg, Group.startKill] using hready
      | _ => exact hready
  | world _ h =>
      cases h with
      | group l g hl hchild hmove => exact hmove.waitStatus hready
      | arrive stream | close stream => cases stream <;> exact hready
      | _ => exact hready

theorem Sys.WaitMove.pipe (h : s.WaitMove cfg t) (stream : Stream) :
    t.pipe stream = s.pipe stream := by
  cases h <;> cases stream <;> rfl

/-- A pipe that has ended delivers nothing more. -/
theorem Sys.WorldMove.pipe {own : Label} (h : s.WorldMove own t) {stream : Stream}
    (hended : (s.pipe stream).fin.isSome) : t.pipe stream = s.pipe stream := by
  cases h with
  | arrive other bytes hchild hfin | close other how hchild hfin =>
      refine s.pipe_setPipe_of_ne _ (fun hsame => ?_)
      rw [hsame] at hfin
      rw [hfin] at hended
      cases hended
  | _ => cases stream <;> rfl

/-- Once a pipe has ended only the driver changes it. -/
theorem pipe_of_rest (hstep : stuttering (Sys.step cfg) s l = some t) (hl : ¬driverTurn l)
    {stream : Stream} (hended : (s.pipe stream).fin.isSome) : t.pipe stream = s.pipe stream := by
  rcases stuttering_cases hstep with rfl | ⟨own, rfl, hby⟩
  · rfl
  · cases hby with
    | driver w h => exact absurd trivial hl
    | wait c w h => exact (Sys.waitStep_move h).pipe stream
    | world _ h => exact h.pipe hended

/-- A pipe that has ended has ended for good. -/
theorem Sys.StepBy.fin {own : Label} (h : s.StepBy cfg own t) {stream : Stream}
    (hended : (s.pipe stream).fin.isSome) : (t.pipe stream).fin.isSome := by
  cases h with
  | driver w hmove => rwa [(Sys.driverStep_move hmove).ends.2]
  | wait c w hmove => rwa [(Sys.waitStep_move hmove).pipe]
  | world _ hmove => rwa [hmove.pipe hended]

theorem Sys.Quit.turn (h : s.Quit) (hstep : stuttering (Sys.step cfg) s l = some t) : t.Quit := by
  rcases stuttering_cases hstep with rfl | ⟨own, rfl, hby⟩
  · exact h
  · exact ⟨hby.waitStatus h.reaped, fun stream => hby.fin (h.ended stream)⟩

end Frames

/-! What the programs of the driver hand over. -/

section Leaves

variable {cfg : Config} {v : LoopVars} {next : Next}

theorem yields_exitLoop (h : (exitLoop cfg v).Yields next) : next = .returned := by
  obtain ⟨_, -, h⟩ := Program.Yields.bind h
  exact Program.yields_ret h

/-- The variables of the loop after a result, as far as the loop's end depends on
them. -/
structure LoopVars.After (v : LoopVars) (r : SelectResult) (v' : LoopVars) : Prop where
  done : ∀ stream, v'.done stream = (v.done stream || r.ends stream)
  childExited : v'.childExited = (v.childExited || r.exit?.isSome)

theorem LoopVars.After.setDone {stream : Stream} {result : Option (Except IoError String)}
    (hend : SelectResult.ends stream (.line stream result) = true) :
    v.After (.line stream result) (v.setDone stream) := by
  rcases result with _ | _ | _
  · constructor
    · intro other
      cases stream <;> cases other <;> simp [LoopVars.setDone, LoopVars.done, SelectResult.ends]
    · cases stream <;> exact (Bool.or_false _).symm
  · constructor
    · intro other
      cases stream <;> cases other <;> simp [LoopVars.setDone, LoopVars.done, SelectResult.ends]
    · cases stream <;> exact (Bool.or_false _).symm
  · cases hend

theorem yields_loopTurn {r : SelectResult} (hr : v.Offers r)
    (h : (loopTurn cfg v r).Yields next) : ∃ v', next = .loop v' ∧ v.After r v' := by
  cases r with
  | line stream result =>
      rcases result with _ | _ | text
      · exact ⟨_, Program.yields_ret h, .setDone (by simp [SelectResult.ends])⟩
      · exact ⟨_, Program.yields_ret h, .setDone (by simp [SelectResult.ends])⟩
      · obtain ⟨state, -, h⟩ := Program.Yields.bind h
        refine ⟨_, Program.yields_ret h, fun other => ?_, (Bool.or_false _).symm⟩
        cases other <;> exact (Bool.or_false _).symm
  | exit result =>
      obtain ⟨outcome, rfl⟩ := Option.isSome_iff_exists.mp hr.2
      simp only [loopTurn, receiveExit] at h
      obtain ⟨time, -, h⟩ := Program.Yields.bind h
      obtain ⟨-, -, h⟩ := Program.Yields.bind h
      obtain ⟨-, -, h⟩ := Program.Yields.bind h
      obtain ⟨-, -, h⟩ := Program.Yields.bind h
      refine ⟨_, Program.yields_ret h, fun other => ?_, (Bool.or_true _).symm⟩
      cases other <;> exact (Bool.or_false _).symm

end Leaves

/-! A turn of the select loop. -/

/-- What is left to read from a pipe. -/
def Pipe.unread (p : Pipe) : ℕ := p.held.length + p.avail.length

def Sys.unread (s : Sys) : ℕ := s.stdout.unread + s.stderr.unread

/-- Nobody reads from pipes that have ended but the driver, and it does so at the head of
its loop. -/
theorem Sys.Quit.unread {cfg : Config} {s t : Sys} {l : Option Label} (h : s.Quit)
    (hstep : stuttering (Sys.step cfg) s l = some t)
    (hrest : ¬driverTurn l ∨ ∀ v, s.ctl ≠ .top v) : t.unread = s.unread := by
  have hpipes : ∀ stream, t.pipe stream = s.pipe stream := by
    intro stream
    by_cases hl : driverTurn l
    · have hctl := hrest.resolve_left (not_not_intro hl)
      rcases stuttering_cases hstep with rfl | ⟨own, rfl, hby⟩
      · rfl
      · cases hby with
        | driver w hmove =>
            rcases Sys.driverStep_cases hmove with ⟨o, k, -, rfl⟩ | ⟨v, htop, -⟩
            · exact (s.act_leaves cfg w o).pipe stream
            · exact absurd htop (hctl v)
        | wait c w hmove => exact hl.elim
        | world _ hmove => exact hmove.pipe (h.ended stream)
    · exact pipe_of_rest hstep hl (h.ended stream)
  have hout : t.stdout = s.stdout := hpipes .stdout
  have herr : t.stderr = s.stderr := hpipes .stderr
  rw [Sys.unread, Sys.unread, hout, herr]

/-- The branches of the select loop that are not done. -/
def LoopVars.pending (v : LoopVars) : ℕ :=
  (!v.stdoutDone).toNat + (!v.stderrDone).toNat + (!v.childExited).toNat

/-- A result that is not a line ends a branch. -/
def SelectResult.closes : SelectResult → Bool
  | .line _ (some (.ok _)) => false
  | _ => true

theorem Pipe.unread_dropFuture (p : Pipe) : p.dropFuture.unread ≤ p.unread := by
  simp [unread]

/-- A pipe that has ended answers, and a line it answers with is taken out of it. -/
theorem Pipe.nextLine_ended {p : Pipe} (hended : p.fin.isSome) :
    ∃ result, p.nextLine.1 = some result ∧ ∀ stream,
      p.nextLine.2.unread + (!SelectResult.closes (.line stream result)).toNat ≤ p.unread := by
  have hpoll := p.nextLine_poll
  generalize p.nextLine.1 = answer, p.nextLine.2 = q at hpoll
  cases hpoll with
  | pending q hline hopen => rw [hopen] at hended; cases hended
  | terminated q hline hheld havail hfin =>
      refine ⟨_, rfl, fun stream => ?_⟩
      have hcut := congrArg List.length (Lines.beforeDelim_append_afterDelim p.avail hline)
      simp only [List.length_append, List.length_cons] at hcut
      simp only [unread, hheld, havail, SelectResult.closes, List.length_nil]
      simp only [Bool.not_false, Bool.toNat_true]
      omega
  | unterminated q hline heof hrest hheld havail hfin =>
      refine ⟨_, rfl, fun stream => ?_⟩
      have hpos := List.length_pos_iff.mpr hrest
      rw [List.length_append] at hpos
      simp only [unread, hheld, havail, SelectResult.closes, List.length_nil]
      simp only [Bool.not_false, Bool.toNat_true]
      omega
  | eof q heof hrest hheld havail hfin =>
      exact ⟨_, rfl, fun stream => by simp [unread, hheld, havail, SelectResult.closes]⟩
  | failed q error hfail hheld havail hfin =>
      exact ⟨_, rfl, fun stream => by simp [unread, hheld, havail, SelectResult.closes]⟩

/-- A result that closes a branch leaves one less. -/
theorem LoopVars.After.pending {v v' : LoopVars} {r : SelectResult} (h : v.After r v')
    (hr : v.Offers r) : v'.pending + r.closes.toNat = v.pending := by
  have hout := h.done .stdout
  have herr := h.done .stderr
  have hexit := h.childExited
  simp only [LoopVars.done] at hout herr
  cases r with
  | line stream result =>
      have hopen : v.done stream = false := hr
      rcases result with _ | _ | text <;> cases stream <;> simp only [LoopVars.done] at hopen <;>
        simp [LoopVars.pending, SelectResult.closes, SelectResult.ends, SelectResult.exit?, hout,
          herr, hexit, hopen] <;> omega
  | exit result =>
      obtain ⟨hopen, hsome⟩ := hr
      simp [LoopVars.pending, SelectResult.closes, SelectResult.ends, SelectResult.exit?, hout,
        herr, hexit, hopen, hsome]

/-- What a turn of the driver at the head of its loop comes to, when the pipes have
ended: a branch completes and less is left to do, or only the exit is missing and
has not been sent yet. -/
inductive Sys.Turn (cfg : Config) (s : Sys) (v : LoopVars) (t : Sys) : Prop where
  | completes (r) (hr : v.Offers r) (hctl : t.ctl = settle (loopTurn cfg v r))
      (hless : ∀ v', v.After r v' → t.unread + v'.pending < s.unread + v.pending)
  | waits (hsame : t = s) (hexited : v.childExited = false)
      (hempty : ∀ outcome, s.exitRx ≠ .sent outcome)

/-- Completing a branch with the answer of a pipe. -/
private theorem completes_line {cfg : Config} {s t : Sys} {v : LoopVars} {stream : Stream}
    {result : Option (Except IoError String)} (hopen : v.done stream = false)
    (hctl : t.ctl = settle (loopTurn cfg v (.line stream result)))
    (hread : t.unread + (!SelectResult.closes (.line stream result)).toNat ≤ s.unread) :
    s.Turn cfg v t := by
  refine .completes (.line stream result) hopen hctl (fun v' hafter => ?_)
  have hpending := hafter.pending hopen
  cases hcloses : SelectResult.closes (.line stream result) <;>
    simp only [hcloses, Bool.not_true, Bool.not_false, Bool.toNat_true, Bool.toNat_false]
      at hread hpending <;>
    omega

theorem Sys.Quit.driverStep {cfg : Config} {s t : Sys} {v : LoopVars} {w : Oracle} (h : s.Quit)
    (hctl : s.ctl = .top v) (hended : v.ended = false) (hstep : s.driverStep cfg w = some t) :
    s.Turn cfg v t := by
  have hpoll : s.pollStdout cfg v = t := by
    simpa [Sys.driverStep, hctl, hended] using hstep
  cases hout : v.stdoutDone with
  | false =>
      obtain ⟨result, hready, hless⟩ := Pipe.nextLine_ended (p := s.stdout) (h.ended .stdout)
      have ht : { s with stdout := s.stdout.nextLine.2 }.selectDone cfg v
          (.line .stdout result) = t := by
        simpa [Sys.pollStdout, hout, hready] using hpoll
      subst ht
      have hopen : v.done .stdout = false := hout
      refine completes_line hopen rfl ?_
      have hdropped := s.stdout.nextLine.2.unread_dropFuture
      have hother := s.stderr.unread_dropFuture
      have hread := hless .stdout
      simp only [Sys.unread, Sys.selectDone]
      omega
  | true =>
      cases herr : v.stderrDone with
      | false =>
          obtain ⟨result, hready, hless⟩ := Pipe.nextLine_ended (p := s.stderr) (h.ended .stderr)
          have ht : { s with stderr := s.stderr.nextLine.2 }.selectDone cfg v
              (.line .stderr result) = t := by
            simpa [Sys.pollStdout, Sys.pollStderr, hout, herr, hready] using hpoll
          subst ht
          have hopen : v.done .stderr = false := herr
          refine completes_line hopen rfl ?_
          have hdropped := s.stderr.nextLine.2.unread_dropFuture
          have hother := s.stdout.unread_dropFuture
          have hread := hless .stderr
          simp only [Sys.unread, Sys.selectDone]
          omega
      | true =>
          have hexited : v.childExited = false := by
            simpa [LoopVars.ended, hout, herr] using hended
          cases hrx : s.exitRx with
          | sent outcome =>
              have ht : { s with exitRx := .taken outcome }.selectDone cfg v
                  (.exit (some outcome)) = t := by
                simpa [Sys.pollStdout, Sys.pollStderr, Sys.pollExit, hout, herr, hexited, hrx]
                  using hpoll
              subst ht
              refine .completes (.exit (some outcome)) ⟨hexited, rfl⟩ rfl (fun v' hafter => ?_)
              have hpending := hafter.pending ⟨hexited, rfl⟩
              have hdropped := s.stdout.unread_dropFuture
              have hother := s.stderr.unread_dropFuture
              simp only [Sys.unread, Sys.selectDone, SelectResult.closes, Bool.toNat_true]
                at hpending ⊢
              omega
          | empty | taken =>
              refine .waits ?_ hexited (by simp [hrx])
              simpa [Sys.pollStdout, Sys.pollStderr, Sys.pollExit, hout, herr, hexited, hrx]
                using hpoll.symm

/-! What is reachable at the head of the loop. -/

/-- The driver stands at an operation, at the head of its loop, or has returned. -/
inductive Ctl.Proper : Ctl → Prop where
  | op (o : Op) (k : o.Ans → Driver Next) : Proper (.run (.op o k))
  | top (v : LoopVars) : Proper (.top v)
  | returned : Proper .returned

theorem settle_proper (p : Driver Next) : (settle p).Proper := by
  cases p with
  | op o k => exact .op o k
  | ret next =>
      cases next with
      | loop v => exact .top v
      | returned => exact .returned

section Reachable

variable {cfg : Config} {s : Sys}

theorem Sys.Reachable.proper (hs : Sys.Reachable cfg s) : s.ctl.Proper := by
  refine hs.invariant (I := fun s => s.ctl.Proper) (settle_proper (spawnJob cfg)) ?_
  intro s t _ _ hproper hmove
  rcases hmove.frame with hdriver | ⟨hctl, -, -⟩
  · cases hdriver with
    | op w o k hctl => exact settle_proper (k _)
    | leave v hctl hended => exact settle_proper (exitLoop cfg v)
    | pending v hctl hended hout herr => exact hproper
    | stdout v result => exact settle_proper (loopTurn cfg v (.line .stdout result))
    | stderr v result => exact settle_proper (loopTurn cfg v (.line .stderr result))
    | exit v outcome => exact settle_proper (loopTurn cfg v (.exit (some outcome)))
  · rw [hctl]
    exact hproper

private theorem ledger_act_waitTasks (cfg : Config) (w : Oracle) (o : Op) (d : Ledger)
    (h : d.waitTasks ≠ []) : (Ledger.act cfg w o d).2.waitTasks ≠ [] := by
  cases o with
  | spawnChild => simp only [Ledger.act]; cases w.spawned <;> exact h
  | spawnWaitTask procGroup => simp [Ledger.act]
  | _ => exact h

private def attendedSpec (cfg : Config) : Spec cfg (fun _ _ => True) where
  guarantee _ _ := True
  top _ d := d.waitTasks ≠ []
  done _ := True
  launch := by
    simp only [spawnJob, launchJob, startJob, openRawLog, Program.wp_bind, Driver.wp_emit]
    refine ⟨Program.respects_true _ _, ?_⟩
    split <;> simp [handover, finalizeJob]
  turn := by
    intro v d r _ htop _ _
    have hkept := Program.wp_kept (ledger_act_waitTasks cfg) (loopTurn cfg v r) (d.select r) htop
    refine ⟨trivial, Program.wp_consequence _ _ hkept (fun next d' hd' => ?_)⟩
    cases next with
    | loop v' => exact hd'
    | returned => trivial
  finish := by
    intro v d _ _ _
    exact Program.wp_consequence _ d
      (Program.wp_kept (I := fun _ => True) (fun _ _ _ _ => trivial) (finishJob cfg v) d trivial)
      (fun _ _ _ => trivial)

/-- At the head of the loop the wait task is there. -/
theorem Sys.Reachable.attended_at_top (hs : Sys.Reachable cfg s) {v : LoopVars}
    (hctl : s.ctl = .top v) : s.wait.pc ≠ .unspawned := by
  have hat := (attendedSpec cfg).holds (fun _ _ _ _ => trivial) hs
  rw [hctl] at hat
  cases hs.tasked with
  | unspawned htasks => exact absurd htasks hat
  | spawned pid _ _ _ hpc => exact hpc

/-- What the wait task has delivered is in the channel, unless the driver has it. -/
theorem Sys.Reachable.sent_of_delivered (hs : Sys.Reachable cfg s) {v : LoopVars}
    (hctl : s.ctl = .top v) (hexited : v.childExited = false)
    (hdelivered : s.wait.pc.delivered = true) : ∃ outcome, s.exitRx = .sent outcome := by
  have htracked : v.Tracks s.selected := tracked_of_top cfg s v hs hctl
  have hchannel := hs.channel
  unfold Sys.Channel at hchannel
  cases hrx : s.exitRx with
  | empty => simp [hrx, hdelivered] at hchannel
  | sent outcome => exact ⟨outcome, rfl⟩
  | taken outcome =>
      rw [hrx] at hchannel
      rw [htracked.exited, hchannel.2] at hexited
      cases hexited

end Reachable

end Execra
