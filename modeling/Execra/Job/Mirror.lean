import Execra.Job.Phases

/-!
The snapshot as the fold of the events. A subscriber that folds the stream
over the initial snapshot keeps a stack of phases, which the snapshot itself
does not have: `currentPhase` is its top. The driver writes snapshot and
stream in two steps, in either order, so the two agree at the boundaries of
its steps and not in between.
-/

namespace Execra

open Program

/-- What a subscriber keeps: the snapshot but for its current phase, and the
open phases with the innermost first. -/
structure View where
  job : Job
  stack : List PhaseId

/-- One event seen. -/
def View.step (view : View) (e : Event) : View :=
  match e.body with
  | .jobStarted _ =>
      { view with job := { view.job with state := .running, startedAt := some e.time } }
  | .phaseEntered phase _ _ => { view with stack := phase :: view.stack }
  | .phaseExited _ => { view with stack := view.stack.tail }
  | .progressUpdated progress => { view with job := { view.job with progress } }
  | .labelUpdated label => { view with job := { view.job with label := some label } }
  | .exited code => { view with job := { view.job with exit := some code, state := .exited } }
  | .finalized outcome =>
      { view with job := { view.job with state := .finalized, outcome := some outcome } }
  | _ => view

/-- The events of a job, folded over its queued snapshot. -/
def View.ofLog (cfg : Config) (log : List Event) : View :=
  log.foldl View.step { job := cfg.initialJob, stack := [] }

/-- The snapshot a subscriber reconstructs. -/
def View.toJob (view : View) : Job := { view.job with currentPhase := view.stack.head? }

theorem View.ofLog_append (cfg : Config) (log : List Event) (e : Event) :
    View.ofLog cfg (log ++ [e]) = (View.ofLog cfg log).step e := by
  simp [ofLog]

/-- `Cancelled` changes nothing, so the driver's events make the same view. -/
theorem View.ofLog_own (cfg : Config) (log : List Event) :
    View.ofLog cfg (log.filter (fun e => !e.body.isCancelled)) = View.ofLog cfg log := by
  rw [ofLog, List.foldl_filter, ofLog]
  congr 1
  funext view e
  cases hbody : e.body <;> simp [EventBody.isCancelled, step, hbody]

/-- Two snapshots that differ at most in their current phase and in the value,
not the presence, of their start time. -/
def Job.Like (j j' : Job) : Prop :=
  ∃ startedAt currentPhase, j = { j' with startedAt, currentPhase } ∧
    startedAt.isSome = j'.startedAt.isSome

/-- The snapshot is the fold of the driver's events, but for its phase. -/
def Ledger.Mirrors (cfg : Config) (d : Ledger) (stack : List PhaseId) : Prop :=
  d.snapshot.Like (View.ofLog cfg d.sent).job ∧ (View.ofLog cfg d.sent).stack = stack

/-- The snapshot is the fold of the driver's events, phase included. -/
def Ledger.Mirrored (cfg : Config) (d : Ledger) (stack : List PhaseId) : Prop :=
  d.Mirrors cfg stack ∧ d.snapshot.currentPhase = stack.head?

section Moves

variable {cfg : Config}

/-- An event is sent together with the update it stands for. -/
theorem Ledger.Mirrors.move {d d' : Ledger} {stack : List PhaseId}
    (h : d.Mirrors cfg stack) {e : Event} {u : SnapshotUpdate}
    (hsnap : d'.snapshot = u.apply d.snapshot) (hsent : d'.sent = d.sent ++ [e])
    (hstep : ∀ (j : Job) (view : View), j.Like view.job →
      (u.apply j).Like (view.step e).job) :
    d'.Mirrors cfg ((View.ofLog cfg d.sent).step e).stack := by
  refine ⟨?_, ?_⟩
  · rw [hsnap, hsent, View.ofLog_append]
    exact hstep _ _ h.1
  · rw [hsent, View.ofLog_append]

/-- An event that stands for no update is sent alone. -/
theorem Ledger.Mirrors.send {d : Ledger} {stack : List PhaseId} (h : d.Mirrors cfg stack)
    {e : Event} (hstep : ∀ view : View, (view.step e).job = view.job) :
    (d.send e).Mirrors cfg ((View.ofLog cfg d.sent).step e).stack := by
  refine ⟨?_, ?_⟩
  · rw [Ledger.send_sent, View.ofLog_append, hstep]
    exact h.1
  · rw [Ledger.send_sent, View.ofLog_append]

/-- Events outside the snapshot leave a mirror a mirror. -/
theorem Ledger.Mirrored.send {d : Ledger} {stack : List PhaseId} (h : d.Mirrored cfg stack)
    {e : Event} (hstep : ∀ view : View, view.step e = view) :
    (d.send e).Mirrored cfg stack := by
  have hmoved := h.1.send (e := e) (fun view => by rw [hstep])
  rw [hstep, h.1.2] at hmoved
  exact ⟨hmoved, h.2⟩

/-- An event that moves the snapshot, but not its phase, with the stack alone. -/
theorem Ledger.Mirrored.move {d d' : Ledger} {stack : List PhaseId}
    (h : d.Mirrored cfg stack) {e : Event} {u : SnapshotUpdate}
    (hsnap : d'.snapshot = u.apply d.snapshot) (hsent : d'.sent = d.sent ++ [e])
    (hstep : ∀ (j : Job) (view : View), j.Like view.job →
      (u.apply j).Like (view.step e).job ∧ (view.step e).stack = view.stack ∧
        (u.apply j).currentPhase = j.currentPhase) :
    d'.Mirrored cfg stack := by
  obtain ⟨-, hstack, hphase⟩ := hstep _ _ h.1.1
  have hmoved := h.1.move hsnap hsent (fun j view hlike => (hstep j view hlike).1)
  rw [hstack, h.1.2] at hmoved
  exact ⟨hmoved, by rw [hsnap, hphase, h.2]⟩

/-- A phase is entered or left: the stack moves, and the snapshot gets its new
top. -/
theorem Ledger.Mirrors.shift {d d' : Ledger} {stack stack' : List PhaseId}
    (h : d.Mirrors cfg stack) {e : Event} {phase : Option PhaseId}
    (hsnap : d'.snapshot = (SnapshotUpdate.phase phase).apply d.snapshot)
    (hsent : d'.sent = d.sent ++ [e]) (hjob : ∀ view : View, (view.step e).job = view.job)
    (hstack : ∀ view : View, view.stack = stack → (view.step e).stack = stack')
    (hphase : phase = stack'.head?) : d'.Mirrored cfg stack' := by
  have hmoved := h.move hsnap hsent (fun j view hlike => by
    obtain ⟨startedAt, currentPhase, rfl, hstarted⟩ := hlike
    exact ⟨startedAt, phase, by rw [hjob]; rfl, by rw [hjob]; exact hstarted⟩)
  rw [hstack _ h.2] at hmoved
  exact ⟨hmoved, by rw [hsnap, ← hphase]; rfl⟩

/-- The events that stand for nothing in the snapshot. -/
theorem View.step_of_plain {e : Event} (view : View) (h : e.body.isPlain = true) :
    view.step e = view := by
  unfold step
  split <;> simp_all [EventBody.isPlain]

/-- An event that tells of a write moves the view as the write the snapshot. -/
theorem SnapshotUpdate.Told.like {u : SnapshotUpdate} {e : Event} (h : u.Told e.body)
    (j : Job) (view : View) (hlike : j.Like view.job) :
    (u.apply j).Like (view.step e).job ∧ (view.step e).stack = view.stack ∧
      (u.apply j).currentPhase = j.currentPhase := by
  obtain ⟨startedAt, currentPhase, rfl, hstarted⟩ := hlike
  unfold View.step
  generalize e.body = body at h
  cases h with
  | running at_ pid => exact ⟨⟨some at_, currentPhase, rfl, rfl⟩, rfl, rfl⟩
  | _ => exact ⟨⟨startedAt, currentPhase, rfl, hstarted⟩, rfl, rfl⟩

end Moves

/-- The mirror is an invariant about phases. -/
def mirrorInvariant (cfg : Config) : PhaseInvariant cfg where
  inv stack d := d.Mirrored cfg stack
  closing stack d := d.Mirrors cfg stack
  init := ⟨⟨⟨none, none, rfl, rfl⟩, rfl⟩, rfl⟩
  frame h hsnap hsent _ := by
    unfold Ledger.Mirrored Ledger.Mirrors at h ⊢
    rw [hsnap, hsent]
    exact h
  plain _ h hplain := h.send (fun view => view.step_of_plain hplain)
  told _ h htold := h.move rfl rfl htold.like
  enter name label time h := h.1.shift rfl rfl (fun _ => rfl)
    (fun view hstack => by simp [View.step, hstack]) rfl
  inside label time h := h.send (fun _ => rfl)
  leave time h := h.1.shift rfl rfl (fun _ => rfl)
    (fun view hstack => by simp [View.step, hstack]) rfl
  close h := h.1
  pop {top rest d} time h := by
    have hsent := h.send (fun view => rfl)
      (e := { job := cfg.id, body := .phaseExited top, time })
    simpa [View.step, h.2] using hsent
  closed h := by
    obtain ⟨⟨startedAt, currentPhase, hjob, hstarted⟩, hstack⟩ := h
    refine ⟨⟨⟨startedAt, none, ?_, hstarted⟩, hstack⟩, rfl⟩
    rw [Ledger.update_snapshot, hjob]
    rfl

/-- A snapshot is the fold of these events, but for the value of `startedAt`. -/
def Job.Folds (cfg : Config) (log : List Event) (j : Job) : Prop :=
  let folded := (View.ofLog cfg log).toJob
  j = { folded with startedAt := j.startedAt } ∧
    j.startedAt.isSome = folded.startedAt.isSome

theorem Ledger.Mirrored.folds {cfg : Config} {d : Ledger} {stack : List PhaseId}
    (h : d.Mirrored cfg stack) : d.snapshot.Folds cfg d.sent := by
  obtain ⟨⟨⟨startedAt, currentPhase, hjob, hstarted⟩, hphases⟩, hphase⟩ := h
  unfold Job.Folds
  rw [hjob] at hphase ⊢
  simp only [View.toJob, hphases, ← hphase]
  exact ⟨trivial, hstarted⟩

/-- The driver's events make the same view as the whole log. -/
theorem Sys.Reachable.view_sent {cfg : Config} {s : Sys} (hs : Sys.Reachable cfg s) :
    View.ofLog cfg s.sent = View.ofLog cfg s.log := by
  rw [hs.merged.own, View.ofLog_own]

/-- Between two turns of the loop, and from the moment `Finalized` is sent, the
snapshot is the fold of the events sent so far over the queued snapshot, but
for the value of `startedAt`. -/
theorem snapshot_is_fold {cfg : Config} {s : Sys} (hs : Sys.Reachable cfg s)
    (hboundary : (∃ v, s.ctl = .top v) ∨ ∃ e ∈ s.log, ∃ outcome, e.body = .finalized outcome) :
    let folded := (View.ofLog cfg s.log).toJob
    s.job = { folded with startedAt := s.job.startedAt } ∧
      s.job.startedAt.isSome = folded.startedAt.isSome := by
  have hmirror : ∃ stack, (s.ledger cfg).Mirrored cfg stack := by
    rcases hboundary with ⟨v, hctl⟩ | ⟨e, he, outcome, heq⟩
    · exact ⟨_, (mirrorInvariant cfg).at_top hs hctl⟩
    · exact ⟨_, (mirrorInvariant cfg).at_end hs he heq⟩
  obtain ⟨stack, hmirrored⟩ := hmirror
  have hfolds := hmirrored.folds
  unfold Job.Folds at hfolds
  rw [show View.ofLog cfg (s.ledger cfg).sent = _ from hs.view_sent] at hfolds
  exact hfolds

theorem snapshot_is_fold_oneLine :
    oneLineEnd.job = { (View.ofLog plainConfig oneLineEnd.log).toJob with
      startedAt := oneLineEnd.job.startedAt } := by
  have hsent : ∃ e ∈ oneLineEnd.log, e.body = .finalized (.succeeded none []) := by
    rw [← List.mem_map, oneLineEnd_log]
    decide
  obtain ⟨e, he, hbody⟩ := hsent
  exact (snapshot_is_fold oneLineEnd_reachable (Or.inr ⟨e, he, _, hbody⟩)).1

end Execra
