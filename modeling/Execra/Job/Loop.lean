import Execra.Job.Rules

/-!
The loop rule. A `Spec` is a proof about the driver on ledgers: an invariant
for the head of the select loop, what holds once `drive_job` has returned, and
a guarantee for every change in between. It holds in every reachable state of
the job. The first use of the rule ties the variables of the loop to what its
select has returned so far; every later one may assume that.
-/

namespace Execra

open Program

/-- What a program of the driver has to establish where it hands over. -/
def handover (top : LoopVars → Ledger → Prop) (done : Ledger → Prop) :
    Next → Ledger → Prop
  | .loop v, d => top v d
  | .returned, d => done d

/-- A proof about the driver that may assume `known` at the head of the loop. -/
structure Spec (cfg : Config) (known : LoopVars → Ledger → Prop) where
  guarantee : Ledger → Ledger → Prop
  top : LoopVars → Ledger → Prop
  done : Ledger → Prop
  launch : Driver.wp cfg guarantee (spawnJob cfg) (handover top done) (Ledger.init cfg)
  turn : ∀ v d r, known v d → top v d → v.ended = false → v.Offers r →
    guarantee d (d.select r) ∧
      Driver.wp cfg guarantee (loopTurn cfg v r) (handover top done) (d.select r)
  finish : ∀ v d, known v d → top v d → v.ended = true →
    Driver.wp cfg guarantee (finishJob cfg v) (fun _ => done) d

namespace Spec

variable {cfg : Config} {known : LoopVars → Ledger → Prop} (S : Spec cfg known)

/-- What a `Spec` says of a driver that stands at `c` with the ledger `d`. -/
def At (d : Ledger) : Ctl → Prop
  | .run p => Driver.wp cfg S.guarantee p (handover S.top S.done) d
  | .top v => S.top v d
  | .returned => S.done d

private theorem settle {p : Driver Next} {d : Ledger}
    (h : Driver.wp cfg S.guarantee p (handover S.top S.done) d) :
    S.At d (settle p) := by
  cases p with
  | ret next => cases next <;> exact h
  | op o k => exact h

private theorem exitLoop {v : LoopVars} {d : Ledger} (hknown : known v d)
    (h : S.top v d) (hended : v.ended = true) :
    Driver.wp cfg S.guarantee (exitLoop cfg v) (handover S.top S.done) d :=
  wp_seq _ _ _ (S.finish v d hknown h hended) (fun _ _ hd => hd)

/-- `known` holds wherever the driver stands at the head of the loop. -/
def Assumed (cfg : Config) (known : LoopVars → Ledger → Prop) : Prop :=
  ∀ s v, Sys.Reachable cfg s → s.ctl = .top v → known v (s.ledger cfg)

private theorem driverMove (hknown : Assumed cfg known) {s t : Sys}
    (hreach : Sys.Reachable cfg s) (hs : S.At (s.ledger cfg) s.ctl)
    (hmove : s.DriverMove cfg t) :
    S.At (t.ledger cfg) t.ctl ∧ Respects S.guarantee (s.ledger cfg) (t.ledger cfg) := by
  rcases hmove.ledger_cases hreach.snapshot_id with
    ⟨w, o, k, hctl, hctl', hled⟩ | ⟨v, hctl, hended, hctl', hled⟩ | ⟨hctl', hled⟩ |
    ⟨v, r, hctl, hended, hoffer, hctl', hled⟩
  · rw [hctl] at hs
    rw [hctl', hled]
    exact ⟨S.settle (hs w).2, (hs w).1⟩
  · have hv := hknown s v hreach hctl
    rw [hctl] at hs
    rw [hctl', hled]
    exact ⟨S.settle (S.exitLoop hv hs hended), respects_self _⟩
  · rw [hctl', hled]
    exact ⟨hs, respects_self _⟩
  · have hv := hknown s v hreach hctl
    rw [hctl] at hs
    rw [hctl', hled]
    obtain ⟨hguar, hturn⟩ := S.turn v _ r hv hs hended hoffer
    exact ⟨S.settle hturn, Or.inr hguar⟩

/-- The loop rule: a `Spec` holds of the driver in every reachable state of the
job, whatever the other tasks do. -/
theorem holds (hknown : Assumed cfg known) {s : Sys} (hs : Sys.Reachable cfg s) :
    S.At (s.ledger cfg) s.ctl := by
  refine hs.invariant (I := fun s => S.At (s.ledger cfg) s.ctl) ?_ ?_
  · have h := S.settle S.launch
    rw [← Sys.init_ledger] at h
    exact h
  · intro s t hreach _ hat hmove
    rcases hmove.frame with hdrv | ⟨hctl, _, hled⟩
    · exact (S.driverMove hknown hreach hat hdrv).1
    · rw [hctl, hled]; exact hat

/-- Every step of the job respects the guarantee. -/
theorem respects (hknown : Assumed cfg known) {s t : Sys} (hs : Sys.Reachable cfg s)
    (hmove : s.Move cfg t) :
    Respects S.guarantee (s.ledger cfg) (t.ledger cfg) := by
  rcases hmove.frame with hdrv | ⟨_, _, hled⟩
  · exact (S.driverMove hknown hs (S.holds hknown hs) hdrv).2
  · rw [hled]; exact respects_self _

/-- A predicate that the guarantee keeps holds of the ledger at every moment. -/
theorem always (hknown : Assumed cfg known) {I : Ledger → Prop}
    (hinit : I (Ledger.init cfg)) (hkeep : ∀ d d', I d → S.guarantee d d' → I d')
    {s : Sys} (hs : Sys.Reachable cfg s) : I (s.ledger cfg) := by
  refine hs.invariant (I := fun s => I (s.ledger cfg)) ?_ ?_
  · rw [Sys.init_ledger]; exact hinit
  · intro s t hreach _ hI hmove
    rcases S.respects hknown hreach hmove with heq | hguar
    · rw [heq]; exact hI
    · exact hkeep _ _ hI hguar

end Spec

/-! What the select loop has returned so far. -/

/-- The line a result delivers. -/
def SelectResult.output? : SelectResult → Option (Stream × String)
  | .line stream (some (.ok text)) => some (stream, text)
  | _ => none

/-- What the wait task sent, if the result delivers it. -/
def SelectResult.exit? : SelectResult → Option WaitOutcome
  | .exit result => result
  | .line _ _ => none

/-- Whether after this result the stream is done: the end of the file, or a
read error. -/
def SelectResult.ends (stream : Stream) : SelectResult → Bool
  | .line _ (some (.ok _)) => false
  | .line s _ => s = stream
  | .exit _ => false

/-- What the exit branch has received. -/
def exitIn (rs : List SelectResult) : Option WaitOutcome := rs.findSome? SelectResult.exit?

/-- Whether the stream's branch is done. -/
def endedIn (stream : Stream) (rs : List SelectResult) : Bool :=
  rs.any (SelectResult.ends stream)

theorem exitIn_append (rs : List SelectResult) (r : SelectResult) :
    exitIn (rs ++ [r]) = (exitIn rs).or r.exit? := by
  simp [exitIn, List.findSome?_append]

theorem endedIn_append (stream : Stream) (rs : List SelectResult) (r : SelectResult) :
    endedIn stream (rs ++ [r]) = (endedIn stream rs || r.ends stream) := by
  simp [endedIn]

/-- What comes on one stream does not end the other. -/
theorem SelectResult.ends_of_ne {stream other : Stream} (h : other ≠ stream)
    (result : Option (Except IoError String)) :
    (SelectResult.line other result).ends stream = false := by
  rcases result with _ | _ | _ <;> simp [ends, h]

/-- The variables of the loop are what the results so far make them. -/
structure LoopVars.Tracks (v : LoopVars) (rs : List SelectResult) : Prop where
  done : ∀ stream, v.done stream = endedIn stream rs
  exited : v.childExited = (exitIn rs).isSome
  timedOut : v.timedOut = ((exitIn rs).map WaitOutcome.timedOut).getD false
  status : v.exitStatus = (exitIn rs).map WaitOutcome.status

def Tracked (v : LoopVars) (d : Ledger) : Prop := v.Tracks d.selected

theorem LoopVars.Tracks.start (t : Instant) : LoopVars.Tracks { start := t } [] where
  done stream := by cases stream <;> rfl
  exited := rfl
  timedOut := rfl
  status := rfl

/-- A line changes none of the variables that are tracked. -/
theorem LoopVars.Tracks.line {v : LoopVars} {rs : List SelectResult} (h : v.Tracks rs)
    (state : DriverState) (stream : Stream) (text : String) :
    LoopVars.Tracks { v with state } (rs ++ [.line stream (some (.ok text))]) where
  done s := by
    rw [endedIn_append, ← h.done]
    cases s <;> simp [LoopVars.done, SelectResult.ends]
  exited := by simpa [exitIn_append, SelectResult.exit?] using h.exited
  timedOut := by simpa [exitIn_append, SelectResult.exit?] using h.timedOut
  status := by simpa [exitIn_append, SelectResult.exit?] using h.status

theorem LoopVars.Tracks.ended {v : LoopVars} {rs : List SelectResult} (h : v.Tracks rs)
    {stream : Stream} {result : Option (Except IoError String)}
    (hend : SelectResult.ends stream (.line stream result) = true) :
    (v.setDone stream).Tracks (rs ++ [.line stream result]) where
  done s := by
    rw [endedIn_append, ← h.done]
    rcases result with _ | _ | _ <;> cases s <;> cases stream <;>
      simp_all [LoopVars.done, LoopVars.setDone, SelectResult.ends]
  exited := by
    cases stream <;>
      simpa [LoopVars.setDone, exitIn_append, SelectResult.exit?] using h.exited
  timedOut := by
    cases stream <;>
      simpa [LoopVars.setDone, exitIn_append, SelectResult.exit?] using h.timedOut
  status := by
    cases stream <;>
      simpa [LoopVars.setDone, exitIn_append, SelectResult.exit?] using h.status

theorem LoopVars.Tracks.exit {v : LoopVars} {rs : List SelectResult} (h : v.Tracks rs)
    (hfirst : v.childExited = false) (outcome : WaitOutcome) :
    LoopVars.Tracks
      { v with
        childExited := true
        timedOut := outcome.timedOut
        exitStatus := some outcome.status }
      (rs ++ [.exit (some outcome)]) := by
  have hnone : exitIn rs = none := by simpa [hfirst] using h.exited
  have hexit : exitIn (rs ++ [.exit (some outcome)]) = some outcome := by
    simp [exitIn_append, hnone, SelectResult.exit?]
  refine ⟨fun stream => ?_, by simp [hexit], by simp [hexit], by simp [hexit]⟩
  rw [endedIn_append, ← h.done]
  cases stream <;> simp [LoopVars.done, SelectResult.ends]

/-- No operation of the driver is a turn of its loop. -/
theorem Ledger.act_selected (cfg : Config) (w : Oracle) (o : Op) (d : Ledger) :
    (Ledger.act cfg w o d).2.selected = d.selected := by
  cases o with
  | spawnChild => simp only [Ledger.act]; cases w.spawned <;> rfl
  | _ => rfl

/-- The program hands over with variables that the results make. -/
private theorem wp_tracked {cfg : Config} {α : Type} (p : Driver α) (f : α → LoopVars)
    (d : Ledger) (h : ∀ a, (f a).Tracks d.selected) :
    Driver.wp cfg (fun _ _ => True) (p >>= fun a => pure (Next.loop (f a)))
      (handover Tracked (fun _ => True)) d := by
  refine wp_seq _ _ d (wp_frame (f := Ledger.selected) (Ledger.act_selected cfg) p d) ?_
  intro a d' hsame
  have ha := h a
  rw [← hsame] at ha
  exact ha

private def trackSpec (cfg : Config) : Spec cfg (fun _ _ => True) where
  guarantee _ _ := True
  top := Tracked
  done _ := True
  launch := by
    simp only [spawnJob, launchJob, startJob, openRawLog, wp_bind, Driver.wp_emit]
    refine ⟨respects_true _ _, ?_⟩
    split <;>
      simp [handover, Tracked, finalizeJob, LoopVars.Tracks.start, Ledger.init]
  turn := by
    rintro v d r - htop - hoffer
    refine ⟨trivial, ?_⟩
    cases r with
    | line stream result =>
        rcases result with _ | e | text
        · exact LoopVars.Tracks.ended htop (by simp [SelectResult.ends])
        · exact LoopVars.Tracks.ended htop (by simp [SelectResult.ends])
        · exact wp_tracked _ _ _ (fun state => LoopVars.Tracks.line htop state stream text)
    | exit result =>
        obtain ⟨hfirst, hsome⟩ := hoffer
        obtain ⟨outcome, rfl⟩ := Option.isSome_iff_exists.mp hsome
        have htracks := LoopVars.Tracks.exit htop hfirst outcome
        simpa [loopTurn, receiveExit, handover, Tracked] using htracks
  finish := by
    intro v d _ _ _
    exact wp_consequence _ d
      (wp_frame (f := Ledger.selected) (Ledger.act_selected cfg) (finishJob cfg v) d)
      (fun _ _ _ => trivial)

/-- At the head of the loop its variables are what its results make them. -/
theorem tracked_of_top (cfg : Config) : Spec.Assumed cfg Tracked := by
  intro s v hs hctl
  have h := (trackSpec cfg).holds (fun _ _ _ _ => trivial) hs
  rw [hctl] at h
  exact h

end Execra
