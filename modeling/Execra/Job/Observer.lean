import Execra.Job.Course
import Execra.Job.Mirror
import Execra.Job.Recording

/-!
An observer that subscribes and then reads the snapshot. What it missed was
sent before it subscribed; the snapshot tells of it unless the driver has sent
the event and not written the snapshot yet. There are three such windows:
after `JobStarted`, after `Exited`, and while `exit_open_phases` pops.
Everywhere else the driver writes first and sends afterwards.
-/

namespace Execra

open Program

/-- Some event of the log tells of a write to the snapshot that is yet to be made. -/
def Job.lags (j : Job) (log : List Event) : Bool :=
  log.any (fun e =>
    match e.body with
    | .jobStarted _ => j.state = .queued
    | .exited _ => j.exit.isNone
    | .phaseExited phase => j.currentPhase = some phase
    | _ => false)

/-- The program writes nothing to the snapshot before it sends an event with
this body, and it does send one. -/
def Driver.announces {α : Type} (body : EventBody) : Driver α → Prop
  | .ret _ => False
  | .op (.send e) _ => e.body = body
  | .op (.updateSnapshot _) _ => False
  | .op _ k => ∀ a, Driver.announces body (k a)

def Ctl.announces (body : EventBody) : Ctl → Prop
  | .run p => Driver.announces body p
  | _ => False

theorem Ctl.announces_settle (body : EventBody) (p : Driver Next) :
    (settle p).announces body ↔ Driver.announces body p := by
  cases p with
  | ret next => cases next <;> exact Iff.rfl
  | op o k => exact Iff.rfl

theorem Driver.announces_bind {α β : Type} {body : EventBody} (p : Driver α) (f : α → Driver β)
    (h : Driver.announces body p) : Driver.announces body (p >>= f) := by
  induction p with
  | ret a => cases h
  | op o k ih =>
      cases o with
      | send e => exact h
      | updateSnapshot u => cases h
      | _ => exact fun a => ih a (h a)

/-- The snapshot, with the event that is about to be sent, is the fold. -/
def Ledger.Ahead (cfg : Config) (body : EventBody) (stack : List PhaseId) (d : Ledger) : Prop :=
  ∀ time, (d.send { job := cfg.id, body, time }).Mirrored cfg stack

/-- What the snapshot is when the driver is about to run `p`: the fold of the
events sent so far, or of these and the next one, or late. The ghost value
tells that the driver has just written the snapshot. -/
private def observerCourse (cfg : Config) : Course cfg Bool where
  ghost o _ _ :=
    match o with
    | .updateSnapshot _ => true
    | _ => false
  start := false
  here p x :=
    (∃ stack, x.1.Mirrored cfg stack) ∨
    (∃ body, Driver.announces body p ∧ ∃ stack, x.1.Ahead cfg body stack) ∨
    (x.2 = false ∧ x.1.snapshot.lags x.1.sent = true)
  bind f o k x h := by
    rcases h with h | ⟨body, hbody, hahead⟩ | h
    · exact Or.inl h
    · exact Or.inr (Or.inl ⟨body, Driver.announces_bind (.op o k) f hbody, hahead⟩)
    · exact Or.inr (Or.inr h)
  top v x := x.1.Mirrored cfg (v.state.phaseStack.map Phase.id)
  done x := ∃ stack, x.1.Mirrored cfg stack

/-- The operations that neither send nor write the snapshot. -/
def Op.isSilent : Op → Bool
  | .send _ | .updateSnapshot _ => false
  | _ => true

section Held

variable {cfg : Config} {α : Type} {Q : α → Ledger × Bool → Prop}

theorem Ledger.act_silent (w : Oracle) {o : Op} (ho : o.isSilent = true) (d : Ledger) :
    (Ledger.act cfg w o d).2.snapshot = d.snapshot ∧ (Ledger.act cfg w o d).2.sent = d.sent := by
  cases o with
  | send _ | updateSnapshot _ => cases ho
  | spawnChild => simp only [Ledger.act]; cases w.spawned <;> exact ⟨rfl, rfl⟩
  | _ => exact ⟨rfl, rfl⟩

/-- An assertion that operations in between keep, and that says enough. -/
structure Steady (cfg : Config) (K : Ledger × Bool → Prop) : Prop where
  known : ∀ x, K x → (∃ stack, x.1.Mirrored cfg stack) ∨
    (x.2 = false ∧ x.1.snapshot.lags x.1.sent = true)
  frame : ∀ x y, K x → y.1.snapshot = x.1.snapshot → y.1.sent = x.1.sent → y.2 = false → K y

private theorem Steady.here {K : Ledger × Bool → Prop} (hK : Steady cfg K)
    (p : Driver α) (x : Ledger × Bool) (hx : K x) : (observerCourse cfg).here p x :=
  (hK.known x hx).imp id Or.inr

private theorem Steady.along {K : Ledger × Bool → Prop} (hK : Steady cfg K) {o : Op}
    (ho : o.isSilent = true) (k : o.Ans → Driver α) (x : Ledger × Bool) (hx : K x)
    (hk : ∀ a y, K y → (observerCourse cfg).along (k a) Q y) :
    (observerCourse cfg).along (.op o .ret >>= k) Q x := by
  refine ⟨hK.here _ x hx, fun w => hk _ _ ?_⟩
  obtain ⟨hsnap, hsent⟩ := @Ledger.act_silent cfg w o ho x.1
  refine hK.frame x _ hx hsnap hsent ?_
  cases o <;> first | rfl | cases ho

private theorem steady_mirrored (stack : List PhaseId) :
    Steady cfg (fun x => x.1.Mirrored cfg stack) where
  known x hx := Or.inl ⟨stack, hx⟩
  frame x y hx hsnap hsent _ := by
    unfold Ledger.Mirrored Ledger.Mirrors at hx ⊢
    rw [hsnap, hsent]
    exact hx

private theorem Steady.and {K : Ledger × Bool → Prop} (hK : Steady cfg K) (f : Job → Prop) :
    Steady cfg (fun x => K x ∧ f x.1.snapshot) where
  known x hx := hK.known x hx.1
  frame x y hx hsnap hsent hghost :=
    ⟨hK.frame x y hx.1 hsnap hsent hghost, by rw [hsnap]; exact hx.2⟩

/-- What the driver does before it sends an event that the snapshot already tells of. -/
private theorem along_before {body : EventBody} {stack : List PhaseId} {o : Op}
    (ho : o.isSilent = true) (k : o.Ans → Driver α) (hk : ∀ a, Driver.announces body (k a))
    (x : Ledger × Bool) (hx : x.1.Ahead cfg body stack)
    (hnext : ∀ a y, y.1.Ahead cfg body stack → (observerCourse cfg).along (k a) Q y) :
    (observerCourse cfg).along (.op o .ret >>= k) Q x := by
  refine ⟨Or.inr (Or.inl ⟨body, ?_, stack, hx⟩), fun w => hnext _ _ ?_⟩
  · cases o <;> first | exact hk | cases ho
  · obtain ⟨hsnap, hsent⟩ := @Ledger.act_silent cfg w o ho x.1
    intro time
    refine (steady_mirrored stack).frame (x.1.send _, x.2) (_, false) (hx time) ?_ ?_ rfl
    · exact hsnap
    · exact congrArg (· ++ [_]) hsent

/-- An event is sent that the snapshot already tells of. -/
private theorem emit_ahead {body : EventBody} {stack : List PhaseId} (time : SystemTime)
    (k : Unit → Driver α) (x : Ledger × Bool) (hx : x.1.Ahead cfg body stack)
    (hk : ∀ y, y.1.Mirrored cfg stack → (observerCourse cfg).along (k ()) Q y) :
    (observerCourse cfg).along (emit cfg body time >>= k) Q x :=
  ⟨Or.inr (Or.inl ⟨body, rfl, stack, hx⟩), fun _ =>
    (steady_mirrored stack).along (o := .insertEvent _) rfl (fun _ => k ()) _ (hx time)
      (fun _ y hy => hk y hy)⟩

/-- The snapshot is written before the event is sent. -/
private theorem update_steady {K : Ledger × Bool → Prop} (hK : Steady cfg K) (u : SnapshotUpdate)
    (k : Unit → Driver α) (x : Ledger × Bool) (hx : K x)
    (hk : (observerCourse cfg).along (k ()) Q (x.1.update u, true)) :
    (observerCourse cfg).along (.op (.updateSnapshot u) .ret >>= k) Q x :=
  ⟨hK.here _ x hx, fun _ => hk⟩

theorem Ledger.Mirrored.ahead_plain {d : Ledger} {stack : List PhaseId}
    (h : d.Mirrored cfg stack) {body : EventBody} (hplain : body.isPlain = true) :
    d.Ahead cfg body stack := fun _ => h.send (fun view => view.step_of_plain hplain)

theorem Ledger.Mirrored.ahead_told {d : Ledger} {stack : List PhaseId}
    (h : d.Mirrored cfg stack) {u : SnapshotUpdate} {body : EventBody} (htold : u.Told body) :
    (d.update u).Ahead cfg body stack := fun _ => h.move rfl rfl htold.like

theorem Ledger.Mirrored.ahead_enter {d : Ledger} {stack : List PhaseId}
    (h : d.Mirrored cfg stack) (id : PhaseId) (name : String) (label : Option String) :
    (d.update (.phase (some id))).Ahead cfg (.phaseEntered id name label) (id :: stack) :=
  fun _ => h.1.shift rfl rfl (fun _ => rfl) (fun view hstack => by simp [View.step, hstack]) rfl

theorem Ledger.Mirrored.ahead_leave {d : Ledger} {top : PhaseId} {rest : List PhaseId}
    (h : d.Mirrored cfg (top :: rest)) :
    (d.update (.phase rest.head?)).Ahead cfg (.phaseExited top) rest :=
  fun _ => h.1.shift rfl rfl (fun _ => rfl) (fun view hstack => by simp [View.step, hstack]) rfl

/-- The snapshot is the fold of the events sent, with these phases open. -/
private def Shown (cfg : Config) (state : DriverState) (x : Ledger × Bool) : Prop :=
  x.1.Mirrored cfg (state.phaseStack.map Phase.id)

private theorem observer_stays {o : Op} (ho : o.isSilent = true) :
    (observerCourse cfg).Stays (Shown cfg) o := by
  intro β k state x hx
  refine ⟨(steady_mirrored _).here _ x hx, fun w => ?_⟩
  obtain ⟨hsnap, hsent⟩ := @Ledger.act_silent cfg w o ho x.1
  exact (steady_mirrored _).frame x (_, false) hx hsnap hsent rfl

private theorem observer_passes : (observerCourse cfg).Passes (Shown cfg) where
  instant := observer_stays rfl
  event state x hreact hx := by
    have hsteady := @steady_mirrored cfg (state.phaseStack.map Phase.id)
    have hshown : ∀ (next : DriverState) (y : Ledger × Bool),
        next.phaseStack.map Phase.id = state.phaseStack.map Phase.id →
        y.1.Mirrored cfg (state.phaseStack.map Phase.id) → Shown cfg next y := by
      intro next y hsame hy
      rw [Shown, hsame]
      exact hy
    cases hreact with
    | quiet next hstack =>
        exact hsteady.along rfl _ x hx (fun _ y hy => hshown next y (by rw [hstack]) hy)
    | plain body next hmeta hplain hstack =>
        refine hsteady.along rfl _ x hx (fun time y hy => ?_)
        exact emit_ahead time _ y (hy.ahead_plain hplain)
          (fun z hz => hshown next z (by rw [hstack]) hz)
    | told u body hmeta htold =>
        refine hsteady.along rfl _ x hx (fun time y hy => update_steady hsteady u _ y hy ?_)
        exact emit_ahead time _ _ (hy.ahead_told htold) (fun z hz => hz)
    | enter name label =>
        refine hsteady.along rfl _ x hx (fun time y hy => hsteady.along rfl _ y hy ?_)
        intro id y hy
        refine update_steady hsteady _ _ y hy ?_
        exact emit_ahead time _ _ (hy.ahead_enter id name label) (fun z hz => hz)
    | inside top rest label hstack =>
        refine hsteady.along rfl _ x hx (fun time y hy => ?_)
        have hahead : y.1.Ahead cfg (.phaseUpdated top.id label)
            (state.phaseStack.map Phase.id) := fun _ => hy.send (fun _ => rfl)
        exact emit_ahead time _ y hahead (fun z hz => hshown _ z (by simp [hstack]) hz)
    | leave top rest hstack =>
        refine hsteady.along rfl _ x hx (fun time y hy => update_steady hsteady _ _ y hy ?_)
        rw [hstack] at hy
        have hahead := Ledger.Mirrored.ahead_leave hy
        rw [List.head?_map] at hahead
        exact emit_ahead time _ _ hahead (fun z hz => hz)

private theorem observer_finalizeJob (outcome : Outcome) {stack : List PhaseId}
    (x : Ledger × Bool) (hx : x.1.Mirrored cfg stack) :
    (observerCourse cfg).along (finalizeJob cfg outcome)
      (fun _ y => y.1.Mirrored cfg stack) x := by
  refine update_steady (steady_mirrored stack) _ _ x hx ?_
  have hahead : (x.1.update (.finalized outcome)).Ahead cfg (.finalized outcome) stack :=
    hx.ahead_told (.finalized outcome)
  refine along_before rfl _ (by exact fun _ _ _ => rfl) (_, true) hahead (fun _ y hy => ?_)
  refine along_before rfl _ (by exact fun _ _ => rfl) y hy (fun _ y hy => ?_)
  refine along_before rfl _ (by exact fun _ => rfl) y hy (fun time y hy => ?_)
  refine emit_ahead time _ y hy (fun y hy => ?_)
  exact (steady_mirrored stack).along rfl _ y hy (fun _ _ hz => hz)

/-- An event with this body has been sent, and the write it tells of comes next. -/
private def Awaits (cfg : Config) (stack : List PhaseId) (body : EventBody)
    (x : Ledger × Bool) : Prop :=
  x.2 = false ∧ x.1.snapshot.lags x.1.sent = true ∧
    ∀ u : SnapshotUpdate, u.Told body → (x.1.update u).Mirrored cfg stack

private theorem steady_awaits (stack : List PhaseId) (body : EventBody) :
    Steady cfg (Awaits cfg stack body) where
  known x hx := Or.inr ⟨hx.1, hx.2.1⟩
  frame x y hx hsnap hsent hghost := by
    obtain ⟨-, hlags, hwrite⟩ := hx
    refine ⟨hghost, by rw [hsnap, hsent]; exact hlags, fun u hu => ?_⟩
    refine (steady_mirrored stack).frame (x.1.update u, false) (y.1.update u, false)
      (hwrite u hu) ?_ hsent rfl
    exact congrArg u.apply hsnap

/-- An event is sent before the snapshot is written. -/
private theorem along_awaited {body : EventBody} {stack : List PhaseId} (time : SystemTime)
    (k : Unit → Driver α) (x : Ledger × Bool) (hx : x.1.Mirrored cfg stack)
    (hlags : x.1.snapshot.lags (x.1.sent ++ [{ job := cfg.id, body, time }]) = true)
    (hk : ∀ y, Awaits cfg stack body y → (observerCourse cfg).along (k ()) Q y) :
    (observerCourse cfg).along (emit cfg body time >>= k) Q x := by
  have hsent : Awaits cfg stack body (x.1.send { job := cfg.id, body, time }, false) :=
    ⟨rfl, hlags, fun u hu => hx.move rfl rfl hu.like⟩
  exact ⟨(steady_mirrored stack).here _ x hx, fun _ =>
    (steady_awaits stack body).along (o := .insertEvent _) rfl (fun _ => k ()) _ hsent
      (fun _ y hy => hk y hy)⟩

private theorem along_awaited_update {stack : List PhaseId} {body : EventBody}
    {u : SnapshotUpdate} (hu : u.Told body) (k : Unit → Driver α) (x : Ledger × Bool)
    (hx : Awaits cfg stack body x)
    (hk : ∀ y, y.1.Mirrored cfg stack → (observerCourse cfg).along (k ()) Q y) :
    (observerCourse cfg).along (.op (.updateSnapshot u) .ret >>= k) Q x :=
  update_steady (steady_awaits stack body) u _ x hx (hk _ (hx.2.2 u hu))

/-- While the open phases are closed, the snapshot has the phase it had before. -/
private def Closing (cfg : Config) (stack : List PhaseId) (x : Ledger × Bool) : Prop :=
  x.1.Mirrors cfg stack ∧
    (x.1.snapshot.currentPhase = stack.head? ∨
      x.2 = false ∧ ∃ phase, x.1.snapshot.currentPhase = some phase ∧
        ∃ e ∈ x.1.sent, e.body = .phaseExited phase)

theorem Job.lags_of_exited {j : Job} {log : List Event} {phase : PhaseId}
    (hphase : j.currentPhase = some phase) {e : Event} (he : e ∈ log)
    (hbody : e.body = .phaseExited phase) : j.lags log = true :=
  List.any_eq_true.mpr ⟨e, he, by simp [hbody, hphase]⟩

private theorem steady_closing (stack : List PhaseId) : Steady cfg (Closing cfg stack) where
  known x hx := by
    obtain ⟨hmirrors, hphase | ⟨hghost, phase, hphase, e, he, hbody⟩⟩ := hx
    · exact Or.inl ⟨stack, hmirrors, hphase⟩
    · exact Or.inr ⟨hghost, Job.lags_of_exited hphase he hbody⟩
  frame x y hx hsnap hsent hghost := by
    obtain ⟨hmirrors, hphase⟩ := hx
    unfold Closing Ledger.Mirrors at *
    rw [hsnap, hsent]
    exact ⟨hmirrors, hphase.imp id (fun h => ⟨hghost, h.2⟩)⟩

private theorem observer_popOpenPhases (stack : List Phase) (x : Ledger × Bool)
    (hx : Closing cfg (stack.map Phase.id) x) :
    (observerCourse cfg).along (popOpenPhases cfg stack) (fun _ => Closing cfg []) x := by
  induction stack generalizing x with
  | nil => exact hx
  | cons top rest ih =>
      refine (steady_closing _).along rfl _ x hx (fun time x hx => ?_)
      refine ⟨(steady_closing _).here _ x hx, fun _ => ?_⟩
      obtain ⟨hmirrors, hphase⟩ := hx
      refine (steady_closing (rest.map Phase.id)).along (o := .insertEvent _) rfl
        (fun _ => popOpenPhases cfg rest) (x.1.send _, false) ?_ (fun _ y hy => ih y hy)
      have hmoved := hmirrors.send (e := { job := cfg.id, body := .phaseExited top.id, time })
        (fun _ => rfl)
      refine ⟨by simpa [View.step, hmirrors.2] using hmoved, Or.inr ⟨rfl, ?_⟩⟩
      rcases hphase with hphase | ⟨-, phase, hphase, e, he, hbody⟩
      · exact ⟨top.id, hphase, _, List.mem_append_right _ (List.mem_singleton_self _), rfl⟩
      · exact ⟨phase, hphase, e, List.mem_append_left _ he, hbody⟩

private theorem observer_exitOpenPhases (state : DriverState) (x : Ledger × Bool)
    (hx : Shown cfg state x) :
    (observerCourse cfg).along (exitOpenPhases cfg state) (fun _ y => y.1.Mirrored cfg []) x := by
  refine Course.along_seq _ _ _ x (observer_popOpenPhases state.phaseStack x ⟨hx.1, Or.inl hx.2⟩)
    (fun _ y hy => update_steady (steady_closing []) _ _ y hy ?_)
  exact (mirrorInvariant cfg).closed hy.1

/-- The exit a view shows is the last one the log announces. -/
theorem View.ofLog_exit (cfg : Config) (log : List Event) :
    (View.ofLog cfg log).job.exit = (exitsOf log).getLast? := by
  induction log using List.reverseRecOn with
  | nil => rfl
  | append_singleton log e ih =>
      rw [View.ofLog_append, exitsOf_append]
      cases hbody : e.body <;> simp [View.step, exitsOf, hbody, ih]

/-- Before the driver has received an exit the snapshot has none. -/
theorem Ledger.Mirrored.exit_none {d : Ledger} {stack : List PhaseId} (h : d.Mirrored cfg stack)
    (hnil : exitsOf d.sent = []) : d.snapshot.exit = none := by
  obtain ⟨⟨⟨startedAt, currentPhase, hjob, -⟩, -⟩, -⟩ := h
  rw [hjob]
  change (View.ofLog cfg d.sent).job.exit = none
  rw [View.ofLog_exit, hnil]
  rfl

private theorem observer_launch :
    (observerCourse cfg).along (spawnJob cfg) (observerCourse cfg).handover
      (Ledger.init cfg, false) := by
  have hinit : (Ledger.init cfg).Mirrored cfg [] := (mirrorInvariant cfg).init
  have hsteady := (@steady_mirrored cfg []).and (fun j => j.state = .queued)
  refine ⟨Or.inl ⟨[], hinit⟩, fun _ => ?_⟩
  refine hsteady.along (o := .insertEvent _) rfl (fun _ => launchJob cfg) (_, false)
    ⟨(hinit.ahead_plain rfl) cfg.createdAt, rfl⟩ (fun _ x hx => ?_)
  refine hsteady.along rfl _ x hx (fun permitted x hx => ?_)
  cases permitted with
  | false => exact ⟨[], hx.1⟩
  | true =>
      refine hsteady.along rfl _ x hx (fun start x hx => ?_)
      have hopen : (observerCourse cfg).along (openRawLog cfg)
          (fun _ y => y.1.Mirrored cfg [] ∧ y.1.snapshot.state = .queued) x := by
        unfold openRawLog
        split
        · exact hsteady.along rfl _ x hx (fun _ _ hy => hy)
        · exact hx
      refine Course.along_seq _ _ _ x hopen (fun _ x hx => hsteady.along rfl _ x hx ?_)
      intro spawned x hx
      cases spawned with
      | error e =>
          exact Course.along_seq _ _ _ x (observer_finalizeJob _ x hx.1) (fun _ _ hy => ⟨[], hy⟩)
      | ok pid =>
          refine hsteady.along rfl _ x hx (fun time x hx => ?_)
          refine along_awaited time _ x hx.1 ?_ (fun x hx => ?_)
          · exact List.any_eq_true.mpr
              ⟨_, List.mem_append_right _ (List.mem_singleton_self _), by simp [hx.2]⟩
          · refine (steady_awaits _ _).along rfl _ x hx (fun t x hx => ?_)
            refine along_awaited_update (.running t pid) _ x hx (fun x hx => ?_)
            exact (steady_mirrored _).along rfl _ x hx (fun _ x hx =>
              (steady_mirrored _).along rfl _ x hx (fun _ _ hy => hy))

private theorem observer_line (v : LoopVars) (stream : Stream) (text : String)
    (x : Ledger × Bool) (hx : Shown cfg v.state x) :
    (observerCourse cfg).along (processLine cfg v.start stream text v.state) (Shown cfg) x := by
  have hsteady := @steady_mirrored cfg (v.state.phaseStack.map Phase.id)
  refine hsteady.along rfl _ x hx (fun time x hx => hsteady.along rfl _ x hx (fun _ x hx => ?_))
  have hkeep : (observerCourse cfg).along (rememberRaw cfg (rawLine stream text))
      (fun _ => Shown cfg v.state) x := by
    unfold rememberRaw
    split
    · exact hsteady.along rfl _ x hx (fun _ _ hy => hy)
    · exact hx
  refine Course.along_seq _ _ _ x hkeep (fun _ x hx => ⟨hsteady.here _ x hx, fun _ => ?_⟩)
  exact observer_passes.interpretLine (fun _ _ => observer_stays rfl) v.start
    { stream, text, time } v.state (x.1.send _, false) (hx.ahead_plain rfl time)

private theorem observer_held : (observerCourse cfg).Held where
  launch := observer_launch
  turn v x r htracked hlife hx _ hoffer := by
    have hselect : (x.1.select r).Mirrored cfg (v.state.phaseStack.map Phase.id) := hx
    cases r with
    | line stream result =>
        rcases result with _ | _ | text
        · cases stream <;> exact hselect
        · cases stream <;> exact hselect
        · exact Course.along_seq _ _ _ _ (observer_line v stream text (_, x.2) hselect)
            (fun _ _ hy => hy)
    | exit result =>
        have hnone : exitIn x.1.selected = none := by simpa [hoffer.1] using htracked.exited
        have hexit : x.1.snapshot.exit = none := hx.exit_none (hlife.exitsOf_nil hnone)
        have hsteady := (@steady_mirrored cfg (v.state.phaseStack.map Phase.id)).and
          (fun j => j.exit = none)
        refine hsteady.along rfl _ (x.1.select _, x.2) ⟨hselect, hexit⟩ (fun time y hy => ?_)
        refine along_awaited time _ y hy.1 ?_ (fun y hy => ?_)
        · exact List.any_eq_true.mpr
            ⟨_, List.mem_append_right _ (List.mem_singleton_self _), by simp [hy.2]⟩
        · refine along_awaited_update (.exited _) _ y hy (fun y hy => ?_)
          exact (steady_mirrored _).along rfl _ y hy (fun _ _ hz => hz)
  finish v x _ hx _ := by
    have hexit := (@observer_passes cfg).runOnExit (fun _ _ => observer_stays rfl)
      v.start (finalExitCode v.exitStatus) v.state x hx
    refine Course.along_seq _ _ _ x hexit (fun state x hx => ?_)
    refine Course.along_seq _ _ _ x (observer_exitOpenPhases state x hx) (fun state x hx => ?_)
    refine (steady_mirrored _).along rfl _ x hx (fun cancelled x hx => ?_)
    exact Program.along_mono (fun _ _ h => h) (fun _ _ hy => ⟨[], hy⟩) _ _
      (observer_finalizeJob _ x hx)

end Held

/-! The observer. -/

/-- The snapshot tells of all the missed events: it is the fold of these and of
further events, each sent since or the next to be sent. -/
def Sys.Reflects (cfg : Config) (missed : List Event) (s : Sys) : Prop :=
  ∃ told, missed <+: told ∧
    (told <+: s.log ∨ ∃ e, told = s.log ++ [e] ∧ s.ctl.announces e.body) ∧
    s.job.Folds cfg told

theorem Job.lags_own (j : Job) (log : List Event) :
    j.lags (log.filter (fun e => !e.body.isCancelled)) = j.lags log := by
  rw [Job.lags, List.any_filter, Job.lags]
  congr 1
  funext e
  cases hbody : e.body <;> simp [EventBody.isCancelled]

/-- Events that differ in their time stamps alone fold alike. -/
theorem Job.Folds.same_body {cfg : Config} {log : List Event} {j : Job} {e e' : Event}
    (h : j.Folds cfg (log ++ [e])) (hbody : e'.body = e.body) : j.Folds cfg (log ++ [e']) := by
  unfold Job.Folds at h ⊢
  rw [View.ofLog_append] at h ⊢
  obtain ⟨hjob, hstarted⟩ := h
  have hstep : ((View.ofLog cfg log).step e').toJob =
      { ((View.ofLog cfg log).step e).toJob with
        startedAt := ((View.ofLog cfg log).step e').toJob.startedAt } ∧
      ((View.ofLog cfg log).step e').toJob.startedAt.isSome =
        ((View.ofLog cfg log).step e).toJob.startedAt.isSome := by
    unfold View.step
    rw [hbody]
    cases e.body <;> exact ⟨rfl, rfl⟩
  exact ⟨by rw [hstep.1]; exact hjob, hstarted.trans hstep.2.symm⟩

section Steps

variable {cfg : Config} {s t : Sys} {missed : List Event}

theorem Sys.Reflects.of_mirrored (hs : Sys.Reachable cfg s) {stack : List PhaseId}
    (h : (s.ledger cfg).Mirrored cfg stack) : s.Reflects cfg s.log := by
  refine ⟨s.log, List.prefix_rfl, Or.inl List.prefix_rfl, ?_⟩
  have hfolds := h.folds
  unfold Job.Folds at hfolds ⊢
  rw [← hs.view_sent]
  exact hfolds

/-- Outside the three windows the snapshot tells of all that has been sent. -/
private theorem reflects_of_at (hs : Sys.Reachable cfg s) {g : Bool}
    (hat : (observerCourse cfg).At (s.ledger cfg, g) s.ctl)
    (hsettled : g = true ∨ s.job.lags s.log = false) : s.Reflects cfg s.log := by
  cases hctl : s.ctl with
  | run p =>
      rw [hctl] at hat
      cases p with
      | ret next =>
          cases next with
          | loop v => exact .of_mirrored hs hat
          | returned => exact .of_mirrored hs hat.choose_spec
      | op o k =>
          rcases hat.1 with ⟨stack, h⟩ | ⟨body, hbody, stack, hahead⟩ | ⟨hghost, hlags⟩
          · exact .of_mirrored hs h
          · let e : Event := { job := cfg.id, body, time := 0 }
            refine ⟨s.log ++ [e], List.prefix_append _ _, Or.inr ⟨e, rfl, ?_⟩, ?_⟩
            · rw [hctl]; exact hbody
            · have hfolds := (hahead 0).folds
              unfold Job.Folds at hfolds ⊢
              rw [View.ofLog_append, ← hs.view_sent, ← View.ofLog_append]
              exact hfolds
          · rw [← Job.lags_own, ← hs.merged.own] at hsettled
            rcases hsettled with htrue | hfalse
            · rw [show g = false from hghost] at htrue; cases htrue
            · exact absurd (hfalse.symm.trans hlags) (by simp)
  | top v => rw [hctl] at hat; exact .of_mirrored hs hat
  | returned => rw [hctl] at hat; exact .of_mirrored hs hat.choose_spec

/-- A step that leaves snapshot and log as they are, and what is announced announced. -/
theorem Sys.Reflects.frame (h : s.Reflects cfg missed) (hjob : t.job = s.job)
    (hlog : t.log = s.log)
    (hctl : ∀ body, s.ctl.announces body → t.ctl.announces body) : t.Reflects cfg missed := by
  obtain ⟨told, hmissed, htold, hfolds⟩ := h
  refine ⟨told, hmissed, ?_, hjob ▸ hfolds⟩
  rw [hlog]
  exact htold.imp id (fun ⟨e, heq, hbody⟩ => ⟨e, heq, hctl _ hbody⟩)

/-- The driver sends an event; if one was announced it is that one. -/
theorem Sys.Reflects.sent (h : s.Reflects cfg missed) (hmissed : missed <+: s.log) {e : Event}
    (hjob : t.job = s.job) (hlog : t.log = s.log ++ [e])
    (hctl : ∀ body, s.ctl.announces body → e.body = body) : t.Reflects cfg missed := by
  obtain ⟨told, hprefix, htold | ⟨e', rfl, hbody⟩, hfolds⟩ := h
  · exact ⟨told, hprefix, Or.inl (hlog ▸ htold.trans (List.prefix_append _ _)), hjob ▸ hfolds⟩
  · refine ⟨t.log, ?_, Or.inl List.prefix_rfl, ?_⟩
    · exact hlog ▸ hmissed.trans (List.prefix_append _ _)
    · rw [hlog, hjob]
      exact hfolds.same_body (hctl _ hbody)

/-- The wait task sends `Cancelled`, which no snapshot tells of. -/
theorem Sys.Reflects.cancelled (h : s.Reflects cfg missed) (hmissed : missed <+: s.log)
    {time : SystemTime} (hjob : t.job = s.job)
    (hlog : t.log = s.log ++ [cancelledEvent cfg time]) (hctl : t.ctl = s.ctl) :
    t.Reflects cfg missed := by
  obtain ⟨told, hprefix, htold | ⟨e', rfl, hbody⟩, hfolds⟩ := h
  · exact ⟨told, hprefix, Or.inl (hlog ▸ htold.trans (List.prefix_append _ _)), hjob ▸ hfolds⟩
  · refine ⟨t.log ++ [e'], ?_, Or.inr ⟨e', rfl, hctl ▸ hbody⟩, ?_⟩
    · rw [hlog, List.append_assoc]
      exact hmissed.trans (List.prefix_append _ _)
    · have hview : View.ofLog cfg (t.log ++ [e']) = View.ofLog cfg (s.log ++ [e']) := by
        rw [hlog, View.ofLog_append, View.ofLog_append, View.ofLog_append]
        rfl
      unfold Job.Folds at hfolds ⊢
      rw [hview, hjob]
      exact hfolds

theorem Sys.act_silent (cfg : Config) (w : Oracle) {o : Op} (ho : o.isSilent = true) (s : Sys) :
    (s.act cfg w o).2.snapshot = s.snapshot ∧ (s.act cfg w o).2.log = s.log := by
  cases o with
  | send _ | updateSnapshot _ => cases ho
  | openRawFile | spawnChild | writeRaw => simp only [act]; split <;> exact ⟨rfl, rfl⟩
  | upsertSnapshot =>
      simp only [act, upsertSnapshot]
      split
      · exact ⟨rfl, rfl⟩
      · split <;> exact ⟨rfl, rfl⟩
  | _ => exact ⟨rfl, rfl⟩

theorem Driver.announces_silent {α : Type} {body : EventBody} {o : Op} {k : o.Ans → Driver α}
    (ho : o.isSilent = true) (h : Driver.announces body (.op o k)) (a : o.Ans) :
    Driver.announces body (k a) := by
  cases o <;> first | exact h a | cases ho

private theorem Sys.Reflects.step {l : Label} (hs : Sys.Reachable cfg s)
    (ht : Sys.Reachable cfg t) (hmissed : missed <+: s.log) (h : s.Reflects cfg missed)
    (hstep : s.step cfg l = some t) : t.Reflects cfg missed := by
  obtain ⟨g, hat⟩ := observer_held.holds hs
  obtain ⟨g', hmoved, hat'⟩ := observer_held.step hs hat hstep
  have hgrows : s.log <+: t.log := (Sys.step_move hstep).log_grows hs ht
  cases hmoved with
  | op w o k hctl ht' =>
      have hctl' : t.ctl = settle (k (s.act cfg w o).1) := congrArg Sys.ctl ht'
      by_cases ho : o.isSilent = true
      · obtain ⟨hsnap, hlog⟩ := s.act_silent cfg w ho
        refine h.frame ((congrArg Sys.snapshot ht').trans hsnap)
          ((congrArg Sys.log ht').trans hlog) (fun body hbody => ?_)
        rw [hctl] at hbody
        rw [hctl', Ctl.announces_settle]
        exact Driver.announces_silent ho hbody _
      · cases o with
        | updateSnapshot u =>
            obtain ⟨told, hall, hrest⟩ := reflects_of_at ht hat' (Or.inl rfl)
            exact ⟨told, (hmissed.trans hgrows).trans hall, hrest⟩
        | send e =>
            subst ht'
            refine h.sent hmissed rfl rfl (fun body hbody => ?_)
            rw [hctl] at hbody
            exact hbody
        | _ => exact absurd rfl ho
  | turn w hturned =>
      obtain ⟨v, hctl, -⟩ := hturned.head
      refine h.frame hturned.snapshot hturned.log (fun body hbody => ?_)
      rw [hctl] at hbody
      cases hbody
  | wait c w hwait =>
      obtain ⟨hctl, hsnap, -⟩ := (Sys.waitStep_move hwait).frame
      cases Sys.waitStep_move hwait with
      | send time hpc => exact h.cancelled hmissed rfl rfl rfl
      | _ => exact h.frame rfl rfl (fun _ hbody => hbody)
  | world l hworld =>
      obtain ⟨hctl, hsnap, -⟩ := hworld.frame cfg
      exact h.frame hsnap hworld.tasks.log (fun _ hbody => hctl ▸ hbody)

end Steps

/-- An observer that subscribes in `s₁` and reads the snapshot in `s₂`: if at
some moment `m` in between, the ends included, the driver owes no write for an
event it has sent, the snapshot tells of everything sent before `s₁`. -/
theorem subscribe_then_read {cfg : Config} {s₁ m s₂ : Sys} {before after : List Label}
    (hs₁ : Sys.Reachable cfg s₁) (hbefore : Transition.run (Sys.step cfg) s₁ before = some m)
    (hafter : Transition.run (Sys.step cfg) m after = some s₂)
    (hsettled : m.job.lags m.log = false) : s₂.Reflects cfg s₁.log := by
  have hgrows : ∀ {s t l}, Sys.Reachable cfg s → s.step cfg l = some t → s.log <+: t.log :=
    fun hs hst => (Sys.step_move hst).log_grows hs (hs.extend hst)
  have hall : ∀ (s : Sys) (l : Label), True := fun _ _ => trivial
  obtain ⟨hm, hmissed⟩ : Sys.Reachable cfg m ∧ s₁.log <+: m.log := by
    refine Transition.invariant_of_run (P := fun _ _ => True)
      (I := fun s => Sys.Reachable cfg s ∧ s₁.log <+: s.log) ?_ ⟨hs₁, List.prefix_rfl⟩
      (Transition.stepsMeet_of_forall hall _ _) hbefore
    exact fun s l t ⟨hs, hlog⟩ _ hst => ⟨hs.extend hst, hlog.trans (hgrows hs hst)⟩
  have hreflects : m.Reflects cfg s₁.log := by
    obtain ⟨g, hat⟩ := observer_held.holds hm
    obtain ⟨told, hprefix, hrest⟩ := reflects_of_at hm hat (Or.inr hsettled)
    exact ⟨told, hmissed.trans hprefix, hrest⟩
  have hend : Sys.Reachable cfg s₂ ∧ s₁.log <+: s₂.log ∧ s₂.Reflects cfg s₁.log := by
    refine Transition.invariant_of_run (P := fun _ _ => True)
      (I := fun s => Sys.Reachable cfg s ∧ s₁.log <+: s.log ∧ s.Reflects cfg s₁.log) ?_
      ⟨hm, hmissed, hreflects⟩ (Transition.stepsMeet_of_forall hall _ _) hafter
    rintro s l t ⟨hs, hlog, h⟩ _ hst
    exact ⟨hs.extend hst, hlog.trans (hgrows hs hst), h.step hs (hs.extend hst) hlog hst⟩
  exact hend.2.2

theorem runningJob_runs :
    (Transition.run (Sys.step plainConfig) (Sys.init plainConfig) (drive 12)).isSome = true := by
  decide

/-- A job that has just entered its loop. -/
def runningJob : Sys := Transition.endOf _ _ (drive 12) runningJob_runs

theorem exitWindow_runs :
    (Transition.run (Sys.step plainConfig) runningJob (leaveQuietly ++ drive 5)).isSome = true := by
  decide

/-- `Exited` has been sent, and the snapshot is still `Running`. -/
def exitWindow : Sys := Transition.endOf _ _ (leaveQuietly ++ drive 5) exitWindow_runs

theorem subscribe_then_read_exitWindow :
    exitWindow.job.lags exitWindow.log = true ∧
      exitWindow.Reflects plainConfig runningJob.log :=
  ⟨by decide, subscribe_then_read (Transition.reachable_endOf _ _ runningJob_runs)
    (Transition.run_nil runningJob) (Transition.run_endOf _ _ exitWindow_runs) (by decide)⟩

theorem startWindow_runs :
    (Transition.run (Sys.step plainConfig) (Sys.init plainConfig) (drive 7)).isSome = true := by
  decide

/-- `JobStarted` has been sent, and the snapshot is still `Queued`. -/
def startWindow : Sys := Transition.endOf _ _ (drive 7) startWindow_runs

theorem started_missed :
    Sys.Reachable plainConfig startWindow ∧
      ¬ startWindow.Reflects plainConfig startWindow.log := by
  refine ⟨Transition.reachable_endOf _ _ startWindow_runs, ?_⟩
  rintro ⟨told, hmissed, htold | ⟨e, rfl, hbody⟩, hfolds⟩
  · have hall : told = startWindow.log := htold.eq_of_length_le hmissed.length_le
    subst hall
    have hstate := congrArg Job.state hfolds.1
    exact absurd hstate (by decide)
  · exact (hbody () (0 : SystemTime)).elim

end Execra
