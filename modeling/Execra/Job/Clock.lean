import Execra.Job.Course

/-!
The times of a job's events. A task reads the clock some operations before it
sends the event that carries the time; between the two it holds a stamp. The
driver and the wait task may each hold one, and the events come in the order of
their times as long as the task with the earlier stamp sends first.
-/

namespace Execra

open Program

/-- The time a program of the driver has taken for an event it is going to send:
only phase ids, the snapshot and the raw output come in between. -/
def Driver.stamp {α : Type} : Driver α → Option SystemTime
  | .ret _ => none
  | .op (.send e) _ => some e.time
  | .op .newPhaseId k => Driver.stamp (k ⟨0⟩)
  | .op (.updateSnapshot _) k => Driver.stamp (k ())
  | .op (.writeRaw _) k => Driver.stamp (k ())
  | .op (.pushMemoryRaw _) k => Driver.stamp (k ())
  | .op _ _ => none

/-- The stamp of a program is its own and not one of what may follow it. -/
def Driver.Settled {α : Type} : Driver α → Prop
  | .ret _ => False
  | .op .newPhaseId k =>
      ∀ id, Driver.Settled (k id) ∧ Driver.stamp (k id) = Driver.stamp (k ⟨0⟩)
  | .op (.updateSnapshot _) k => Driver.Settled (k ())
  | .op (.writeRaw _) k => Driver.Settled (k ())
  | .op (.pushMemoryRaw _) k => Driver.Settled (k ())
  | .op _ _ => True

theorem Driver.Settled.bind {α β : Type} (f : α → Driver β) {p : Driver α}
    (h : Driver.Settled p) :
    Driver.Settled (p >>= f) ∧ Driver.stamp (p >>= f) = Driver.stamp p := by
  induction p with
  | ret a => exact h.elim
  | op o k ih =>
      cases o with
      | newPhaseId =>
          refine ⟨fun id => ⟨(ih id (h id).1).1, ?_⟩, (ih ⟨0⟩ (h ⟨0⟩).1).2⟩
          exact ((ih id (h id).1).2.trans (h id).2).trans (ih ⟨0⟩ (h ⟨0⟩).1).2.symm
      | updateSnapshot _ | writeRaw _ | pushMemoryRaw _ => exact ih () h
      | _ => exact ⟨trivial, rfl⟩

/-- A task holds its stamp until it sends, or until it turns to anything that
does not belong to the sending. -/
private def clockCourse (cfg : Config) : Course cfg (Option SystemTime) where
  ghost o a g :=
    match o with
    | .now => some a
    | .newPhaseId | .updateSnapshot _ | .writeRaw _ | .pushMemoryRaw _ => g
    | _ => none
  start := some cfg.createdAt
  here p x := Driver.Settled p ∧ ∀ t ∈ Driver.stamp p, x.2 = some t
  bind f o k x h := by
    obtain ⟨hsettled, hstamp⟩ := h.1.bind f
    exact ⟨hsettled, hstamp ▸ h.2⟩
  top _ _ := True
  done _ := True

/-- The operations before which no stamp is held, but for the clock itself. -/
def Op.stampless : Op → Bool
  | .now | .newPhaseId | .updateSnapshot _ | .writeRaw _ | .pushMemoryRaw _ | .send _ => false
  | _ => true

section Held

variable {cfg : Config} {α : Type} {Q : α → Ledger × Option SystemTime → Prop}

private theorem here_of_none {p : Driver α} {x : Ledger × Option SystemTime}
    (hsettled : Driver.Settled p) (hnone : Driver.stamp p = none) : (clockCourse cfg).here p x :=
  ⟨hsettled, by simp [hnone]⟩

private theorem along_free {o : Op} (ho : o.stampless = true) (k : o.Ans → Driver α)
    (x : Ledger × Option SystemTime) (hk : ∀ a y, (clockCourse cfg).along (k a) Q y) :
    (clockCourse cfg).along (.op o .ret >>= k) Q x := by
  refine ⟨?_, fun w => hk _ _⟩
  cases o <;> first | exact here_of_none trivial rfl | cases ho

private theorem stays_of_stampless {o : Op} (ho : o.stampless = true) :
    (clockCourse cfg).Stays (fun _ _ => True) o := by
  intro β k state x _
  refine ⟨?_, fun _ => trivial⟩
  cases o <;> first | exact here_of_none trivial rfl | cases ho

private theorem along_now (k : SystemTime → Driver α) (x : Ledger × Option SystemTime)
    (hk : ∀ t d, (clockCourse cfg).along (k t) Q (d, some t)) :
    (clockCourse cfg).along (Driver.now >>= k) Q x :=
  ⟨here_of_none trivial rfl, fun w => hk w.time _⟩

private theorem along_send {e : Event} (k : Unit → Driver α) (d : Ledger)
    (hk : ∀ y, (clockCourse cfg).along (k ()) Q y) :
    (clockCourse cfg).along (Driver.send e >>= k) Q (d, some e.time) :=
  ⟨⟨trivial, fun _ h => h⟩, fun _ => hk _⟩

private theorem emit_stamped {body : EventBody} {time : SystemTime} (k : Unit → Driver α)
    (d : Ledger) (hk : ∀ y, (clockCourse cfg).along (k ()) Q y) :
    (clockCourse cfg).along (emit cfg body time >>= k) Q (d, some time) :=
  along_send _ d (fun y => along_free rfl _ y (fun _ => hk))

/-- An update that stands right before the event it belongs to. -/
private theorem update_stamped {u : SnapshotUpdate} {body : EventBody} {time : SystemTime}
    (k : Unit → Driver α) (d : Ledger) (hk : ∀ y, (clockCourse cfg).along (k ()) Q y) :
    (clockCourse cfg).along
      (Driver.updateSnapshot u >>= fun _ => emit cfg body time >>= k) Q (d, some time) :=
  ⟨⟨trivial, fun _ h => h⟩, fun _ => emit_stamped k _ hk⟩

/-- An update that is followed by the upsert. -/
private theorem along_persist {u : SnapshotUpdate} (k : Unit → Driver α)
    (x : Ledger × Option SystemTime) (hk : ∀ y, (clockCourse cfg).along (k ()) Q y) :
    (clockCourse cfg).along
      (Driver.updateSnapshot u >>= fun _ => Driver.persistSnapshot >>= k) Q x :=
  ⟨here_of_none trivial rfl,
    fun _ => along_free rfl _ _ (fun _ => hk)⟩

private theorem clock_passes : (clockCourse cfg).Passes (fun _ _ => True) where
  instant := stays_of_stampless rfl
  event state x hreact _ := by
    cases hreact with
    | quiet next hstack => exact along_now _ x (fun _ _ => trivial)
    | plain body next hmeta hplain hstack =>
        exact along_now _ x (fun t d => emit_stamped _ d (fun _ => trivial))
    | told u body hmeta htold =>
        exact along_now _ x (fun t d => update_stamped _ d (fun _ => trivial))
    | enter name label =>
        refine along_now _ x (fun t d => ⟨⟨fun id => ⟨trivial, rfl⟩, fun _ h => h⟩, fun _ => ?_⟩)
        exact update_stamped _ _ (fun _ => trivial)
    | inside top rest label hstack =>
        exact along_now _ x (fun t d => emit_stamped _ d (fun _ => trivial))
    | leave top rest hstack =>
        exact along_now _ x (fun t d => update_stamped _ d (fun _ => trivial))

private theorem clock_finalizeJob (outcome : Outcome) (x : Ledger × Option SystemTime) :
    (clockCourse cfg).along (finalizeJob cfg outcome) (fun _ _ => True) x := by
  refine along_persist _ x (fun y => along_free rfl _ y (fun _ y => along_now _ y ?_))
  exact fun t d => emit_stamped _ d (fun y => along_free rfl _ y (fun _ _ => trivial))

private theorem clock_popOpenPhases (stack : List Phase) (x : Ledger × Option SystemTime) :
    (clockCourse cfg).along (popOpenPhases cfg stack) (fun _ _ => True) x := by
  induction stack generalizing x with
  | nil => trivial
  | cons top rest ih => exact along_now _ x (fun t d => emit_stamped _ d ih)

private theorem clock_startJob (start : Instant) (pid : Nat)
    (x : Ledger × Option SystemTime) :
    (clockCourse cfg).along (startJob cfg start pid) (clockCourse cfg).handover x := by
  refine along_now _ x (fun t d => emit_stamped _ d (fun y => along_now _ y (fun t d => ?_)))
  exact along_persist _ _ (fun y => along_free rfl _ y (fun _ _ => trivial))

private theorem clock_launch :
    (clockCourse cfg).along (spawnJob cfg) (clockCourse cfg).handover
      (Ledger.init cfg, some cfg.createdAt) := by
  refine emit_stamped _ _ (fun x => along_free rfl _ x (fun permitted x => ?_))
  cases permitted with
  | false => trivial
  | true =>
      refine along_free rfl _ x (fun start x => ?_)
      have hopen : (clockCourse cfg).along (openRawLog cfg) (fun _ _ => True) x := by
        unfold openRawLog
        split
        · exact along_free rfl _ x (fun _ _ => trivial)
        · trivial
      refine Course.along_seq _ _ _ x hopen (fun _ x _ => along_free rfl _ x ?_)
      intro spawned x
      cases spawned with
      | error e => exact Course.along_seq _ _ _ x (clock_finalizeJob _ x) (fun _ _ _ => trivial)
      | ok pid => exact clock_startJob start pid x

private theorem clock_line (v : LoopVars) (stream : Stream) (text : String)
    (x : Ledger × Option SystemTime) :
    (clockCourse cfg).along (processLine cfg v.start stream text v.state)
      (fun _ _ => True) x := by
  have hsend : ∀ (time : SystemTime) (d : Ledger), (clockCourse cfg).along (do
      Driver.send { job := cfg.id, body := .outputAppended stream text, time }
      interpretLine cfg v.start { stream, text, time } v.state)
      (fun _ _ => True) (d, some time) := fun time d =>
    along_send _ d (fun y => clock_passes.interpretLine (fun _ _ => stays_of_stampless rfl)
      v.start _ v.state y trivial)
  unfold processLine rememberRaw
  split
  · refine along_now _ x (fun t d => ⟨⟨trivial, fun _ h => h⟩, fun _ => ?_⟩)
    exact ⟨⟨trivial, fun _ h => h⟩, fun _ => hsend t _⟩
  · exact along_now _ x (fun t d => ⟨⟨trivial, fun _ h => h⟩, fun _ => hsend t _⟩)

private theorem clock_held : (clockCourse cfg).Held where
  launch := clock_launch
  turn v x r _ _ _ _ hoffer := by
    cases r with
    | line stream result =>
        rcases result with _ | _ | text
        · trivial
        · trivial
        · exact Course.along_seq _ _ _ _ (clock_line v stream text _) (fun _ _ _ => trivial)
    | exit result =>
        refine along_now _ _ (fun t d => emit_stamped _ d (fun y => ?_))
        exact along_persist _ y (fun _ => trivial)
  finish v x _ _ _ := by
    have hexit := (@clock_passes cfg).runOnExit (fun _ _ => stays_of_stampless rfl)
      v.start (finalExitCode v.exitStatus) v.state x trivial
    refine Course.along_seq _ _ _ x hexit (fun state x _ => ?_)
    -- The update after the open phases are closed belongs to no event.
    rw [exitOpenPhases, Program.bind_assoc]
    refine Course.along_seq _ _ _ x (clock_popOpenPhases state.phaseStack x) (fun _ x _ => ?_)
    refine ⟨here_of_none trivial rfl, fun _ => ?_⟩
    exact along_free rfl _ _ (fun cancelled x => clock_finalizeJob _ x)

end Held

/-! The log and the clock. -/

/-- The event the driver is about to send. -/
def Ctl.sending : Ctl → Option Event
  | .run (.op (.send e) _) => some e
  | _ => none

def Ctl.stamp : Ctl → Option SystemTime
  | .run p => Driver.stamp p
  | _ => none

/-- The stamp of the wait task, for `Cancelled`. -/
def WaitPc.stamp : WaitPc → Option SystemTime
  | .cancelSend time => some time
  | _ => none

/-- What a step reads off the system clock. -/
def Sys.clockRead (s : Sys) : Label → List SystemTime
  | .driver w =>
      match s.ctl with
      | .run (.op .now _) => [w.time]
      | _ => []
  | .wait .go w =>
      match s.wait.pc with
      | .cancelStamp => [w.time]
      | _ => []
  | _ => []

/-- The clock over a run, from the creation of the job on. -/
def clockReadings (cfg : Config) (ls : List Label) : List SystemTime :=
  cfg.createdAt :: Transition.observe (Sys.step cfg) Sys.clockRead (Sys.init cfg) ls

/-- When one task sends, the other holds no earlier stamp. -/
def Sys.SendsInTurn (s : Sys) : Label → Prop
  | .driver _ => ∀ e ∈ s.ctl.sending, ∀ t ∈ s.wait.pc.stamp, e.time ≤ t
  | .wait _ _ => ∀ t ∈ s.wait.pc.stamp, ∀ t' ∈ s.ctl.stamp, t ≤ t'
  | _ => True

instance (s : Sys) : (l : Label) → Decidable (s.SendsInTurn l)
  | .driver _ =>
      inferInstanceAs (Decidable (∀ e ∈ s.ctl.sending, ∀ t ∈ s.wait.pc.stamp, e.time ≤ t))
  | .wait _ _ =>
      inferInstanceAs (Decidable (∀ t ∈ s.wait.pc.stamp, ∀ t' ∈ s.ctl.stamp, t ≤ t'))
  | .cancelCheck | .cancelToken | .pollHandle | .arrive _ _ | .close _ _ | .exitLeader _ _
  | .failWait _ | .exitDescendant _ _ | .fork _ _ | .elapse _ => inferInstanceAs (Decidable True)

/-- The log is in the order of its times, which were read off the clock, and so
were the stamps, none of them earlier than what was sent. -/
structure Sys.Timed (readings : List SystemTime) (s : Sys) : Prop where
  sorted : (s.log.map Event.time).Pairwise (· ≤ ·)
  read : ∀ e ∈ s.log, e.time ∈ readings
  driver : ∀ t ∈ s.ctl.stamp, t ∈ readings ∧ ∀ e ∈ s.log, e.time ≤ t
  wait : ∀ t ∈ s.wait.pc.stamp, t ∈ readings ∧ ∀ e ∈ s.log, e.time ≤ t

section Steps

variable {cfg : Config} {s t : Sys} {R R' : List SystemTime} {g : Option SystemTime}

private theorem stamp_of_at {d : Ledger} {c : Ctl} (hat : (clockCourse cfg).At (d, g) c) :
    ∀ t ∈ c.stamp, g = some t := by
  cases c with
  | run p =>
      cases p with
      | ret next => exact fun _ h => nomatch h
      | op o k => exact hat.1.2
  | _ => exact fun _ h => nomatch h

/-- A turn of the loop, and the way out of it, begin without a stamp. -/
private theorem stamp_of_turned (h : Course.Turned cfg s t) : t.ctl.stamp = none := by
  obtain ⟨v, -, htop | hleave | ⟨r, hturn⟩⟩ := h.head
  · rw [htop]; rfl
  · rw [hleave]
    unfold exitLoop finishJob runOnExit
    split
    · rfl
    · obtain ⟨stack, _, _, _, _⟩ := v.state
      cases stack <;> rfl
  · rw [hturn]
    cases r with
    | line stream result => rcases result with _ | _ | text <;> rfl
    | exit result => rfl

/-- A step that sends nothing. A stamp is kept, or taken just now. -/
theorem Sys.Timed.quiet (h : s.Timed R) (hlog : t.log = s.log) {new : List SystemTime}
    (hclock : (R ++ new).Pairwise (· ≤ ·))
    (hdriver : ∀ time ∈ t.ctl.stamp, time ∈ s.ctl.stamp ∨ time ∈ new)
    (hwait : ∀ time ∈ t.wait.pc.stamp, time ∈ s.wait.pc.stamp ∨ time ∈ new) :
    t.Timed (R ++ new) := by
  have hnew : ∀ time ∈ new, ∀ e ∈ s.log, e.time ≤ time := fun time htime e he =>
    (List.pairwise_append.mp hclock).2.2 _ (h.read e he) time htime
  have hheld : ∀ held : Option SystemTime,
      (∀ time ∈ held, time ∈ R ∧ ∀ e ∈ s.log, e.time ≤ time) →
      ∀ time, time ∈ held ∨ time ∈ new →
        time ∈ R ++ new ∧ ∀ e ∈ t.log, e.time ≤ time := by
    rintro held hall time (htime | htime)
    · exact ⟨List.mem_append_left _ (hall time htime).1, hlog ▸ (hall time htime).2⟩
    · exact ⟨List.mem_append_right _ htime, hlog ▸ hnew time htime⟩
  exact ⟨hlog ▸ h.sorted, fun e he => List.mem_append_left _ (h.read e (hlog ▸ he)),
    fun time htime => hheld _ h.driver time (hdriver time htime),
    fun time htime => hheld _ h.wait time (hwait time htime)⟩

/-- A task sends the event of its stamp, and the other holds no earlier one. -/
theorem Sys.Timed.send (h : s.Timed R) {e : Event} (hlog : t.log = s.log ++ [e])
    (hstamp : e.time ∈ R ∧ ∀ f ∈ s.log, f.time ≤ e.time)
    (hdriver : ∀ time ∈ t.ctl.stamp, time ∈ s.ctl.stamp ∧ e.time ≤ time)
    (hwait : ∀ time ∈ t.wait.pc.stamp, time ∈ s.wait.pc.stamp ∧ e.time ≤ time) :
    t.Timed R := by
  have hheld : ∀ time, e.time ≤ time → (∀ f ∈ s.log, f.time ≤ time) →
      ∀ f ∈ t.log, f.time ≤ time := by
    intro time hle hall f hf
    rw [hlog] at hf
    rcases List.mem_append.mp hf with hf | hf
    · exact hall f hf
    · exact List.mem_singleton.mp hf ▸ hle
  refine ⟨?_, ?_, ?_, ?_⟩
  · rw [hlog, List.map_append, List.pairwise_append]
    refine ⟨h.sorted, List.pairwise_singleton _ _, ?_⟩
    simpa using hstamp.2
  · intro f hf
    rw [hlog] at hf
    rcases List.mem_append.mp hf with hf | hf
    · exact h.read f hf
    · exact List.mem_singleton.mp hf ▸ hstamp.1
  · intro time htime
    obtain ⟨hbefore, hle⟩ := hdriver time htime
    exact ⟨(h.driver time hbefore).1, hheld time hle (h.driver time hbefore).2⟩
  · intro time htime
    obtain ⟨hbefore, hle⟩ := hwait time htime
    exact ⟨(h.wait time hbefore).1, hheld time hle (h.wait time hbefore).2⟩

/-- The operations that neither send nor read the clock. -/
def Op.timeless : Op → Bool
  | .send _ | .now => false
  | _ => true

theorem Sys.act_log_timeless (cfg : Config) (w : Oracle) {o : Op} (ho : o.timeless = true)
    (s : Sys) : (s.act cfg w o).2.log = s.log := by
  rcases s.act_log cfg w o with ⟨hlog, -⟩ | ⟨e, hlog, -⟩
  · exact hlog
  · cases o with
    | send _ | now => cases ho
    | openRawFile | spawnChild | writeRaw | upsertSnapshot =>
        simp only [Sys.act, Sys.upsertSnapshot]
        repeat' split
        all_goals rfl
    | _ => rfl

/-- The stamp after an operation that neither sends nor reads the clock. -/
private theorem stamp_of_timeless {w : Oracle} {o : Op} {k : o.Ans → Driver Next}
    (hat : (clockCourse cfg).At (s.ledger cfg, g) (.run (.op o k)))
    (hat' : (clockCourse cfg).At ((s.act cfg w o).2.ledger cfg,
      (clockCourse cfg).ghost o (s.act cfg w o).1 g) (settle (k (s.act cfg w o).1)))
    (ho : o.timeless = true) :
    ∀ time ∈ (settle (k (s.act cfg w o).1)).stamp, time ∈ Ctl.stamp (.run (.op o k)) := by
  have hsettle : ∀ p : Driver Next, Ctl.stamp (settle p) = Driver.stamp p := by
    intro p
    cases p with
    | ret next => cases next <;> rfl
    | op o k => rfl
  intro time htime
  have hghost := stamp_of_at hat' time htime
  rw [hsettle] at htime
  cases o with
  | send _ | now => cases ho
  | newPhaseId =>
      have hsame := (hat.1.1 (s.act cfg w .newPhaseId).1).2
      rw [hsame] at htime
      exact htime
  | updateSnapshot _ | writeRaw _ | pushMemoryRaw _ => exact htime
  | _ => exact nomatch hghost

/-- A step of the wait task that reads the clock. -/
theorem Sys.waitStep_stamp {c : WaitChoice} {w : Oracle} (hpc : s.wait.pc = .cancelStamp)
    (h : s.waitStep cfg w c = some t) : c = .go ∧ t = s.waitAt (.cancelSend w.time) := by
  cases c <;> simp [waitStep, hpc] at h
  exact ⟨rfl, h.symm⟩

/-- What a step of the wait task does to its stamp. -/
theorem Sys.WaitMove.timed (h : s.WaitMove cfg t) :
    s.wait.pc = .cancelStamp ∨
    (∃ time, s.wait.pc = .cancelSend time ∧ t.log = s.log ++ [cancelledEvent cfg time] ∧
      t.wait.pc.stamp = none) ∨
    (t.log = s.log ∧ t.wait.pc.stamp = none) := by
  cases h with
  | stamp time hpc => exact Or.inl hpc
  | send time hpc => exact Or.inr (Or.inl ⟨time, hpc, rfl, rfl⟩)
  | _ => exact Or.inr (Or.inr ⟨rfl, rfl⟩)

private theorem Sys.Timed.step {l : Label} {g' : Option SystemTime}
    (ht : Sys.Reachable cfg t) (hs : Sys.Reachable cfg s)
    (hat : (clockCourse cfg).At (s.ledger cfg, g) s.ctl)
    (hat' : (clockCourse cfg).At (t.ledger cfg, g') t.ctl) (h : s.Timed R)
    (hclock : (R ++ s.clockRead l).Pairwise (· ≤ ·)) (hturn : s.SendsInTurn l)
    (hmoved : (clockCourse cfg).Moved g s l t g') : t.Timed (R ++ s.clockRead l) := by
  cases hmoved with
  | op w o k hctl hnext =>
      have hmove : s.DriverMove cfg t := hnext ▸ .op w o k hctl
      have hpc : t.wait.pc.stamp = s.wait.pc.stamp := hmove.wait_same hs ht WaitPc.stamp rfl
      have hlog : t.log = (s.act cfg w o).2.log := by rw [hnext]
      have hctl' : t.ctl = settle (k (s.act cfg w o).1) := by rw [hnext]
      have hwait : ∀ time ∈ t.wait.pc.stamp, time ∈ s.wait.pc.stamp := fun _ h => hpc ▸ h
      by_cases ho : o.timeless = true
      · refine h.quiet (hlog.trans (s.act_log_timeless cfg w ho)) hclock
          (fun time htime => Or.inl ?_) (fun time htime => Or.inl (hwait time htime))
        rw [hctl] at hat ⊢
        rw [hctl'] at htime
        subst hnext
        exact stamp_of_timeless hat hat' ho time htime
      · cases o with
        | send e =>
            have hread : s.clockRead (.driver w) = [] := by simp [Sys.clockRead, hctl]
            have hstamp : e.time ∈ s.ctl.stamp := by rw [hctl]; rfl
            have hsending : e ∈ s.ctl.sending := by rw [hctl]; rfl
            rw [hread, List.append_nil]
            refine h.send hlog (h.driver _ hstamp) (fun time htime => ?_) (fun time htime => ?_)
            · exact nomatch stamp_of_at hat' time htime
            · exact ⟨hwait time htime, hturn e hsending time (hwait time htime)⟩
        | now =>
            have hread : s.clockRead (.driver w) = [w.time] := by simp [Sys.clockRead, hctl]
            refine h.quiet hlog hclock (fun time htime => Or.inr ?_)
              (fun time htime => Or.inl (hwait time htime))
            have hnow : some w.time = some time := stamp_of_at hat' time htime
            rw [hread, Option.some.inj hnow]
            exact List.mem_singleton_self _
        | _ => exact absurd rfl ho
  | turn w hturned =>
      refine h.quiet hturned.log hclock (fun time htime => ?_) (fun time htime => Or.inl ?_)
      · rw [stamp_of_turned hturned] at htime
        exact nomatch htime
      · rwa [hturned.wait] at htime
  | wait c w hstep =>
      have hmove := Sys.waitStep_move hstep
      have hctl : t.ctl = s.ctl := hmove.frame.1
      have hdriver : ∀ time ∈ t.ctl.stamp, time ∈ s.ctl.stamp := fun _ h => hctl ▸ h
      rcases hmove.timed with hpc | ⟨time, hpc, hlog, hafter⟩ | ⟨hlog, hafter⟩
      · obtain ⟨rfl, hnext⟩ := Sys.waitStep_stamp hpc hstep
        have hread : s.clockRead (.wait .go w) = [w.time] := by simp [Sys.clockRead, hpc]
        refine h.quiet (by rw [hnext]; rfl) hclock
          (fun time htime => Or.inl (hdriver time htime)) (fun time htime => Or.inr ?_)
        rw [hnext] at htime
        rw [hread]
        exact List.mem_singleton.mpr (Option.some.inj htime).symm
      · have hread : s.clockRead (.wait c w) = [] := by cases c <;> simp [Sys.clockRead, hpc]
        have hstamp : time ∈ s.wait.pc.stamp := by rw [hpc]; rfl
        rw [hread, List.append_nil]
        refine h.send hlog (h.wait time hstamp) (fun time' htime => ?_) (by simp [hafter])
        exact ⟨hdriver time' htime, hturn time hstamp time' (hdriver time' htime)⟩
      · exact h.quiet hlog hclock (fun time htime => Or.inl (hdriver time htime))
          (by simp [hafter])
  | world l hworld =>
      obtain ⟨hctl, hwait, hlog⟩ := hworld.tasks
      refine h.quiet hlog hclock (fun time htime => Or.inl ?_) (fun time htime => Or.inl ?_)
      · rwa [hctl] at htime
      · rwa [hwait] at htime

end Steps

/-- If the clock never goes backwards, then in a run in which no task sends
while the other holds an earlier stamp the events are sent in the order of their
times. -/
theorem event_times_nondecreasing {cfg : Config} {ls : List Label} {s : Sys}
    (hclock : (clockReadings cfg ls).Pairwise (· ≤ ·))
    (hmeet : Transition.StepsMeet (Sys.step cfg) Sys.SendsInTurn (Sys.init cfg) ls)
    (hrun : Transition.run (Sys.step cfg) (Sys.init cfg) ls = some s) :
    (s.log.map Event.time).Pairwise (· ≤ ·) := by
  have hinit : (Sys.init cfg).Timed (clockReadings cfg []) := by
    refine ⟨List.Pairwise.nil, by simp [Sys.init], fun time htime => ?_,
      by simp [Sys.init, WaitPc.stamp]⟩
    have hcreated : some cfg.createdAt = some time := htime
    exact ⟨by simp [clockReadings, Option.some.inj hcreated], by simp [Sys.init]⟩
  obtain ⟨g, -, htimed⟩ := clock_held.run_induction
    (fun done _ s => (clockReadings cfg done).Pairwise (· ≤ ·) → s.Timed (clockReadings cfg done))
    hmeet hrun (fun _ => hinit) (by
      intro done g s l t g' hdone ht hat hat' hI hturn hmoved hreadings
      have hmore : clockReadings cfg (done ++ [l]) = clockReadings cfg done ++ s.clockRead l :=
        congrArg (cfg.createdAt :: ·) (Transition.observe_snoc Sys.clockRead hdone l)
      rw [hmore] at hreadings ⊢
      exact (hI (List.pairwise_append.mp hreadings).1).step ht ⟨done, hdone⟩ hat hat' hreadings
        hturn hmoved)
  exact (htimed hclock).sorted

/-- A running job is cancelled and prints a line. At 10 the driver takes the
time for the line, at 20 the wait task takes it for `Cancelled`. -/
def twoStamps : List Label :=
  drive 12 ++ [.cancelCheck, .cancelToken, .wait .go {}, .wait .cancel {},
    .arrive .stdout [0x78, newline]] ++ drive 1 ++ [.driver { time := 10 },
    .wait .go { time := 20 }]

/-- The earlier stamp is sent first. -/
def stampedRun : List Label := twoStamps ++ drive 2 ++ [.wait .go {}]

theorem stampedRun_runs :
    (Transition.run (Sys.step plainConfig) (Sys.init plainConfig) stampedRun).isSome = true := by
  decide

def stampedEnd : Sys := Transition.endOf _ _ stampedRun stampedRun_runs

theorem event_times_nondecreasing_stamped :
    stampedEnd.log.map Event.time = [0, 0, 10, 20] ∧
      (stampedEnd.log.map Event.time).Pairwise (· ≤ ·) :=
  ⟨by decide, event_times_nondecreasing (by decide) (by decide)
    (Transition.run_endOf (Sys.init plainConfig) stampedRun stampedRun_runs)⟩

/-- The later stamp is sent first. -/
def crossedRun : List Label := twoStamps ++ [.wait .go {}] ++ drive 2

theorem crossedRun_runs :
    (Transition.run (Sys.step plainConfig) (Sys.init plainConfig) crossedRun).isSome = true := by
  decide

def crossedEnd : Sys := Transition.endOf _ _ crossedRun crossedRun_runs

theorem event_times_crossed :
    Sys.Reachable plainConfig crossedEnd ∧
      (clockReadings plainConfig crossedRun).Pairwise (· ≤ ·) ∧
      crossedEnd.log.map Event.time = [0, 0, 20, 10] ∧
      ¬ (crossedEnd.log.map Event.time).Pairwise (· ≤ ·) :=
  ⟨Transition.reachable_endOf _ _ crossedRun_runs, by decide, by decide, by decide⟩

end Execra
