import Execra.Job.Course
import Execra.Model.Query

/-!
The stored history against the broadcast one. `emit` sends an event and then
inserts it, and the driver and the wait task both do so: between the two
halves of one another may fall. As long as no event is inserted ahead of one
that was sent before it, the rows are the events that were sent, in order.
-/

namespace Execra

open Program

def EventBody.isOutput : EventBody → Bool
  | .outputAppended .. => true
  | _ => false

/-- The events of a log that the store keeps: all but `OutputAppended`. -/
def persisted (log : List Event) : List Event := log.filter (fun e => !e.body.isOutput)

/-- The row of an event. -/
def EventRow.ofEvent (event : Event) : EventRow where
  jobId := event.job
  atMs := toMs event.time
  kind := event.body.kind
  payload := ⟨event⟩
  schemaVersion := Execra.schemaVersion

theorem persisted_append (log : List Event) (e : Event) :
    persisted (log ++ [e]) = persisted log ++ if e.body.isOutput then [] else [e] := by
  cases h : e.body.isOutput <;> simp [persisted, h]

/-- An insert that is `Ok` appends the event's row. -/
theorem Store.insertEvent_events (store : Store) {e : Event} (h : e.body.isOutput = false)
    (hwrites : e.serializes = true) :
    (store.insertEvent e true true).1.events = store.events ++ [EventRow.ofEvent e] := by
  unfold Store.insertEvent
  rw [hwrites]
  cases hbody : e.body <;> first | rfl | simp [hbody, EventBody.isOutput] at h

/-- The event a program of the driver is about to insert. -/
def Driver.inserting {α : Type} : Driver α → Option Event
  | .op (.insertEvent e) _ => some e
  | _ => none

def Ctl.inserting : Ctl → Option Event
  | .run p => p.inserting
  | _ => none

/-- The event the wait task is about to insert. -/
def WaitPc.inserting (cfg : Config) : WaitPc → Option Event
  | .cancelInsert time => some (cancelledEvent cfg time)
  | _ => none

/-- The driver inserts each event right after it has sent it. -/
private def historyCourse (cfg : Config) : Course cfg (Option Event) where
  ghost o _ g :=
    match o with
    | .send e => if e.body.isOutput then g else some e
    | .insertEvent _ => none
    | _ => g
  start := none
  here p x := x.2 = p.inserting ∧ ∀ e ∈ p.inserting, e.job = cfg.id
  bind f o k x h := by cases o <;> exact h
  top _ x := x.2 = none
  done x := x.2 = none

/-- The operations of the two halves of `emit`. -/
def Op.emits : Op → Bool
  | .send _ | .insertEvent _ => true
  | _ => false

section Held

variable {cfg : Config}

/-- Nothing is sent that is not inserted. -/
private def Clear {α : Type} (_ : α) (x : Ledger × Option Event) : Prop := x.2 = none

private theorem here_of_silent {α : Type} {p : Driver α} {x : Ledger × Option Event}
    (hp : p.inserting = none) (hx : x.2 = none) : (historyCourse cfg).here p x :=
  ⟨hx.trans hp.symm, by simp [hp]⟩

private theorem along_op {α : Type} {Q : α → Ledger × Option Event → Prop} {o : Op}
    (ho : o.emits = false) (k : o.Ans → Driver α) (x : Ledger × Option Event) (hx : x.2 = none)
    (hk : ∀ a y, y.2 = none → (historyCourse cfg).along (k a) Q y) :
    (historyCourse cfg).along (.op o .ret >>= k) Q x := by
  refine ⟨?_, fun w => hk _ _ ?_⟩
  · cases o <;> first | exact here_of_silent rfl hx | cases ho
  · cases o <;> first | exact hx | cases ho

private theorem emit_clear {body : EventBody} (time : SystemTime)
    (hbody : body.isOutput = false) (x : Ledger × Option Event) (hx : x.2 = none) :
    (historyCourse cfg).along (emit cfg body time) Clear x := by
  refine ⟨here_of_silent rfl hx, fun _ => ⟨⟨?_, ?_⟩, fun _ => rfl⟩⟩
  · change (if body.isOutput then x.2 else some _) = some _
    rw [hbody]
    rfl
  · intro e he
    rw [← Option.some.inj he]

private theorem stays_of_silent {o : Op} (ho : o.emits = false)
    (hghost : ∀ a g, (historyCourse cfg).ghost o a g = g) :
    (historyCourse cfg).Stays Clear o := by
  intro β k state x hx
  refine ⟨?_, fun w => (hghost _ _).trans hx⟩
  cases o <;> first | exact here_of_silent rfl hx | cases ho

theorem EventBody.kept_of_metadata {body : EventBody} (h : body.isMetadata = true) :
    body.isOutput = false := by
  cases body <;> first | rfl | cases h

private theorem history_keeps : (historyCourse cfg).Keeps (fun x => x.2 = none) where
  now := stays_of_silent rfl (fun _ _ => rfl)
  instant := stays_of_silent rfl (fun _ _ => rfl)
  newPhaseId := stays_of_silent rfl (fun _ _ => rfl)
  update _ := stays_of_silent rfl (fun _ _ => rfl)
  emit _ time x hmeta hx := emit_clear time (EventBody.kept_of_metadata hmeta) x hx

private theorem history_finalizeJob (outcome : Outcome) (x : Ledger × Option Event)
    (hx : x.2 = none) : (historyCourse cfg).along (finalizeJob cfg outcome) Clear x := by
  refine along_op rfl _ x hx (fun _ x hx => along_op rfl _ x hx (fun _ x hx => ?_))
  refine along_op rfl _ x hx (fun _ x hx => along_op rfl _ x hx (fun time x hx => ?_))
  refine Course.along_seq _ _ _ x (emit_clear time rfl x hx) (fun _ y hy => ?_)
  exact along_op rfl _ y hy (fun _ _ hz => hz)

private theorem history_launch :
    (historyCourse cfg).along (spawnJob cfg) (historyCourse cfg).handover
      (Ledger.init cfg, none) := by
  refine Course.along_seq _ _ _ _ (emit_clear cfg.createdAt rfl _ rfl) (fun _ x hx => ?_)
  refine along_op rfl _ x hx (fun permitted x hx => ?_)
  cases permitted with
  | false => exact hx
  | true =>
      refine along_op rfl _ x hx (fun start x hx => ?_)
      have hopen : (historyCourse cfg).along (openRawLog cfg) Clear x := by
        unfold openRawLog
        split
        · exact along_op rfl _ x hx (fun _ _ hy => hy)
        · exact hx
      refine Course.along_seq _ _ _ x hopen (fun _ x hx => along_op rfl _ x hx ?_)
      intro spawned x hx
      cases spawned with
      | error e =>
          exact Course.along_seq _ _ _ x (history_finalizeJob _ x hx) (fun _ _ hy => hy)
      | ok pid =>
          refine along_op rfl _ x hx (fun time x hx => ?_)
          refine Course.along_seq _ _ _ x (emit_clear time rfl x hx) (fun _ x hx => ?_)
          refine along_op rfl _ x hx (fun _ x hx => along_op rfl _ x hx (fun _ x hx => ?_))
          exact along_op rfl _ x hx (fun _ x hx => along_op rfl _ x hx (fun _ _ hy => hy))

private theorem history_line (v : LoopVars) (stream : Stream) (text : String)
    (x : Ledger × Option Event) (hx : x.2 = none) :
    (historyCourse cfg).along (processLine cfg v.start stream text v.state) Clear x := by
  refine along_op rfl _ x hx (fun time x hx => along_op rfl _ x hx (fun _ x hx => ?_))
  have hkeep : (historyCourse cfg).along (rememberRaw cfg (rawLine stream text)) Clear x := by
    unfold rememberRaw
    split
    · exact along_op rfl _ x hx (fun _ _ hy => hy)
    · exact hx
  refine Course.along_seq _ _ _ x hkeep (fun _ x hx => ?_)
  refine ⟨here_of_silent rfl hx, fun _ => ?_⟩
  exact history_keeps.passes.interpretLine (fun _ _ => stays_of_silent rfl (fun _ _ => rfl))
    v.start _ v.state _ hx

private theorem history_held : (historyCourse cfg).Held where
  launch := history_launch
  turn v x r _ _ hx _ hoffer := by
    cases r with
    | line stream result =>
        rcases result with _ | _ | text
        · exact hx
        · exact hx
        · exact Course.along_seq _ _ _ _ (history_line v stream text _ hx) (fun _ _ hy => hy)
    | exit result =>
        refine along_op rfl _ _ hx (fun time x hx => ?_)
        refine Course.along_seq _ _ _ x (emit_clear time rfl x hx) (fun _ x hx => ?_)
        exact along_op rfl _ x hx (fun _ x hx => along_op rfl _ x hx (fun _ _ hy => hy))
  finish v x _ hx _ := by
    have hexit := (@history_keeps cfg).passes.runOnExit
      (fun _ _ => stays_of_silent rfl (fun _ _ => rfl)) v.start (finalExitCode v.exitStatus)
      v.state x hx
    refine Course.along_seq _ _ _ x hexit (fun state x hx => ?_)
    have hclose : (historyCourse cfg).along (exitOpenPhases cfg state) Clear x :=
      history_keeps.exitOpenPhases state x hx
    refine Course.along_seq _ _ _ x hclose (fun state x hx => along_op rfl _ x hx ?_)
    exact fun cancelled x hx => history_finalizeJob _ x hx

end Held

/-! The tables and the log. -/

/-- The rows of a job's events. -/
def Store.eventRows (store : Store) (job : JobId) : List EventRow :=
  store.events.filter (fun row => row.jobId = job)

/-- Two events at most wait to be inserted, in the order in which they were sent. -/
def Queued (driver wait : Option Event) (pending : List Event) : Prop :=
  pending = driver.toList ++ wait.toList ∨ pending = wait.toList ++ driver.toList

/-- The rows are the events sent so far, but for those that wait. -/
def Sys.Archived (cfg : Config) (driver : Option Event) (s : Sys) : Prop :=
  ∃ stored pending, persisted s.log = stored ++ pending ∧
    s.store.map (fun store => store.eventRows cfg.id) = some (stored.map EventRow.ofEvent) ∧
    Queued driver (s.wait.pc.inserting cfg) pending

/-- A call of `insert_event` is `Ok`: its statements succeed, and the event that is inserted
has a serialisation. -/
def Event.InsertsOk (e : Event) (w : Oracle) : Prop :=
  w.insertOk = true ∧ w.findingOk = true ∧ e.serializes = true

instance (e : Event) (w : Oracle) : Decidable (e.InsertsOk w) :=
  inferInstanceAs (Decidable (_ ∧ _))

/-- Every insert is `Ok`. -/
def Sys.InsertsSucceed (cfg : Config) (s : Sys) : Label → Prop
  | .driver w => ∀ e ∈ s.ctl.inserting, e.InsertsOk w
  | .wait _ w => ∀ e ∈ s.wait.pc.inserting cfg, e.InsertsOk w
  | _ => True

/-- No event is inserted while one that was sent before it still waits: when
both tasks have an event to insert, it is not the turn of the one sent last. -/
def Sys.InsertsInTurn (cfg : Config) (s : Sys) : Label → Prop
  | .driver _ => (s.wait.pc.inserting cfg).isSome →
      ∀ e ∈ s.ctl.inserting, (persisted s.log).getLast? ≠ some e
  | .wait _ _ => s.ctl.inserting.isSome →
      ∀ e ∈ s.wait.pc.inserting cfg, (persisted s.log).getLast? ≠ some e
  | _ => True

instance (cfg : Config) (s : Sys) : (l : Label) → Decidable (s.InsertsSucceed cfg l)
  | .driver w => inferInstanceAs (Decidable (∀ e ∈ s.ctl.inserting, e.InsertsOk w))
  | .wait _ w => inferInstanceAs (Decidable (∀ e ∈ s.wait.pc.inserting cfg, e.InsertsOk w))
  | .cancelCheck | .cancelToken | .pollHandle | .arrive _ _ | .close _ _ | .exitLeader _ _
  | .failWait _ | .exitDescendant _ _ | .fork _ _ | .elapse _ => inferInstanceAs (Decidable True)

instance (cfg : Config) (s : Sys) : (l : Label) → Decidable (s.InsertsInTurn cfg l)
  | .driver _ =>
      inferInstanceAs (Decidable ((s.wait.pc.inserting cfg).isSome →
        ∀ e ∈ s.ctl.inserting, (persisted s.log).getLast? ≠ some e))
  | .wait _ _ =>
      inferInstanceAs (Decidable (s.ctl.inserting.isSome →
        ∀ e ∈ s.wait.pc.inserting cfg, (persisted s.log).getLast? ≠ some e))
  | .cancelCheck | .cancelToken | .pollHandle | .arrive _ _ | .close _ _ | .exitLeader _ _
  | .failWait _ | .exitDescendant _ _ | .fork _ _ | .elapse _ => inferInstanceAs (Decidable True)

/-- No event waits to be inserted. -/
def Sys.AtRest (cfg : Config) (s : Sys) : Prop :=
  s.ctl.inserting = none ∧ s.wait.pc.inserting cfg = none

section Steps

variable {cfg : Config} {driver : Option Event} {s t : Sys}

theorem Sys.Archived.frame (h : s.Archived cfg driver) (hlog : t.log = s.log)
    (hstore : t.store.map Store.events = s.store.map Store.events)
    (hpc : t.wait.pc.inserting cfg = s.wait.pc.inserting cfg) : t.Archived cfg driver := by
  obtain ⟨stored, pending, hsplit, hrows, hqueued⟩ := h
  refine ⟨stored, pending, hlog ▸ hsplit, ?_, hpc ▸ hqueued⟩
  have hmap : ∀ store : Option Store, store.map (fun st => st.eventRows cfg.id) =
      (store.map Store.events).map (fun rows => rows.filter (fun row => row.jobId = cfg.id)) := by
    intro store
    cases store <;> rfl
  rw [hmap, hstore, ← hmap, hrows]

/-- The driver sends an event that is to be stored. -/
theorem Sys.Archived.send (h : s.Archived cfg none) {e : Event}
    (hkept : e.body.isOutput = false) (hlog : t.log = s.log ++ [e]) (hstore : t.store = s.store)
    (hwait : t.wait = s.wait) : t.Archived cfg (some e) := by
  obtain ⟨stored, pending, hsplit, hrows, hqueued⟩ := h
  refine ⟨stored, pending ++ [e], ?_, hstore ▸ hrows, Or.inr ?_⟩
  · rw [hlog, persisted_append, hsplit, hkept]
    simp
  · rw [hwait]
    rcases hqueued with rfl | rfl <;> simp

/-- The wait task sends `Cancelled`. -/
theorem Sys.Archived.cancel (h : s.Archived cfg driver) {e : Event}
    (hkept : e.body.isOutput = false) (hlog : t.log = s.log ++ [e]) (hstore : t.store = s.store)
    (hbefore : s.wait.pc.inserting cfg = none) (hafter : t.wait.pc.inserting cfg = some e) :
    t.Archived cfg driver := by
  obtain ⟨stored, pending, hsplit, hrows, hqueued⟩ := h
  refine ⟨stored, pending ++ [e], ?_, hstore ▸ hrows, Or.inl ?_⟩
  · rw [hlog, persisted_append, hsplit, hkept]
    simp
  · rw [hbefore] at hqueued
    rw [hafter]
    rcases hqueued with rfl | rfl <;> simp

/-- An event that is not the last one sent, or waits alone, is the first to wait. -/
private theorem Queued.first {e : Event} {other : Option Event} {pending : List Event}
    (stored : List Event)
    (h : Queued (some e) other pending ∨ Queued other (some e) pending)
    (hturn : other.isSome → (stored ++ pending).getLast? ≠ some e) :
    pending = e :: other.toList := by
  have hcases : pending = e :: other.toList ∨ pending = other.toList ++ [e] := by
    rcases h with (rfl | rfl) | (rfl | rfl) <;> simp
  rcases hcases with hfirst | hlast
  · exact hfirst
  · cases other with
    | none => exact hlast
    | some f =>
        subst hlast
        exact absurd (by simp [List.getLast?_append]) (hturn rfl)

/-- The first event that waits is inserted. -/
private theorem Sys.Archived.insert {e : Event} {other : Option Event} {w : Oracle}
    {stored pending : List Event}
    (hrows : s.store.map (fun store => store.eventRows cfg.id) =
      some (stored.map EventRow.ofEvent))
    (hkept : e.body.isOutput = false) (hjob : e.job = cfg.id)
    (hok : e.InsertsOk w)
    (hstore : t.store = (s.insertEvent e w).store) (hpending : pending = e :: other.toList) :
    stored ++ pending = (stored ++ [e]) ++ other.toList ∧
      t.store.map (fun store => store.eventRows cfg.id) =
        some ((stored ++ [e]).map EventRow.ofEvent) := by
  refine ⟨by simp [hpending], ?_⟩
  obtain ⟨store, hsome, hrows⟩ := Option.map_eq_some_iff.mp hrows
  have hevents : (store.insertEvent e w.insertOk w.findingOk).1.eventRows cfg.id =
      store.eventRows cfg.id ++ [EventRow.ofEvent e] := by
    rw [hok.1, hok.2.1, Store.eventRows, store.insertEvent_events hkept hok.2.2,
      List.filter_append]
    simp [Store.eventRows, EventRow.ofEvent, hjob]
  rw [hstore]
  simp [Sys.insertEvent, hsome, hevents, hrows]

/-- Operations other than the two halves of `emit` leave log and events alone. -/
theorem Sys.act_history (cfg : Config) (w : Oracle) {o : Op} (ho : o.emits = false) (s : Sys) :
    (s.act cfg w o).2.log = s.log ∧
      (s.act cfg w o).2.store.map Store.events = s.store.map Store.events := by
  cases o with
  | send _ | insertEvent _ => cases ho
  | openRawFile | spawnChild | writeRaw => simp only [act]; split <;> exact ⟨rfl, rfl⟩
  | upsertSnapshot =>
      simp only [act, upsertSnapshot]
      split
      · exact ⟨rfl, rfl⟩
      · next store hstore => split <;> simp [hstore, Store.upsertJob]
  | _ => exact ⟨rfl, rfl⟩

/-- A step of the wait task that inserts, with the answers its label gives it. -/
theorem Sys.waitStep_insert {c : WaitChoice} {w : Oracle} {time : SystemTime}
    (hpc : s.wait.pc = .cancelInsert time) (h : s.waitStep cfg w c = some t) :
    t = (s.insertEvent (cancelledEvent cfg time) w).waitAt .terminate := by
  cases c <;> simp [waitStep, hpc] at h
  exact h.symm

/-- Any other step of the wait task. -/
theorem Sys.WaitMove.history (h : s.WaitMove cfg t) :
    (∃ time, s.wait.pc = .cancelInsert time) ∨
    (∃ e, e.body.isOutput = false ∧ t.log = s.log ++ [e] ∧ t.store = s.store ∧
      s.wait.pc.inserting cfg = none ∧ t.wait.pc.inserting cfg = some e) ∨
    (t.log = s.log ∧ t.store = s.store ∧
      t.wait.pc.inserting cfg = s.wait.pc.inserting cfg) := by
  cases h with
  | insert time w hpc => exact Or.inl ⟨time, hpc⟩
  | send time hpc =>
      exact Or.inr (Or.inl ⟨_, rfl, rfl, rfl, by rw [hpc]; rfl, rfl⟩)
  | _ =>
      refine Or.inr (Or.inr ⟨rfl, rfl, ?_⟩)
      simp [Sys.waitAt, WaitPc.inserting, *]

private theorem inserting_of_at {d : Ledger} {c : Ctl}
    (hat : (historyCourse cfg).At (d, driver) c) : driver = c.inserting := by
  cases c with
  | run p =>
      cases p with
      | ret next => cases next <;> exact hat
      | op o k => exact hat.1.1
  | top v => exact hat
  | returned => exact hat

private theorem Sys.Archived.step {l : Label} {next : Option Event}
    (hs : Sys.Reachable cfg s) (ht : Sys.Reachable cfg t)
    (hat : (historyCourse cfg).At (s.ledger cfg, driver) s.ctl)
    (h : s.Archived cfg driver) (hkept : ∀ e ∈ driver, e.body.isOutput = false)
    (hok : s.InsertsSucceed cfg l) (hturn : s.InsertsInTurn cfg l)
    (hmoved : (historyCourse cfg).Moved driver s l t next) :
    t.Archived cfg next ∧ ∀ e ∈ next, e.body.isOutput = false := by
  cases hmoved with
  | op w o k hctl ht' =>
      subst ht'
      rw [hctl] at hat
      obtain ⟨hhere, hjob⟩ := hat.1
      have hpc : (s.act cfg w o).2.wait.pc.inserting cfg = s.wait.pc.inserting cfg :=
        (Sys.DriverMove.op w o k hctl).wait_same hs ht (WaitPc.inserting cfg) rfl
      by_cases ho : o.emits = false
      · have hghost : (historyCourse cfg).ghost o (s.act cfg w o).1 driver = driver := by
          cases o <;> first | rfl | cases ho
        obtain ⟨hlog, hevents⟩ := Sys.act_history cfg w ho s
        rw [hghost]
        exact ⟨h.frame hlog hevents hpc, hkept⟩
      · cases o with
        | send e =>
            have hnone : driver = none := hhere
            subst hnone
            cases hout : e.body.isOutput with
            | true =>
                have hghost : (historyCourse cfg).ghost (.send e) (s.act cfg w (.send e)).1 none =
                    none := by simp [historyCourse, hout]
                obtain ⟨stored, pending, hsplit, hrows, hqueued⟩ := h
                rw [hghost]
                refine ⟨⟨stored, pending, ?_, hrows, hpc ▸ hqueued⟩, by simp⟩
                change persisted (s.log ++ [e]) = _
                rw [persisted_append, hout, hsplit]
                simp
            | false =>
                have hghost : (historyCourse cfg).ghost (.send e) (s.act cfg w (.send e)).1 none =
                    some e := by simp [historyCourse, hout]
                rw [hghost]
                exact ⟨h.send hout rfl rfl rfl, by simpa using hout⟩
        | insertEvent e =>
            have hsome : driver = some e := hhere
            subst hsome
            have hins : s.ctl.inserting = some e := by rw [hctl]; rfl
            obtain ⟨stored, pending, hsplit, hrows, hqueued⟩ := h
            have hfirst := Queued.first stored (Or.inl hqueued)
              (fun hother => hsplit ▸ hturn hother e hins)
            obtain ⟨hsplit', hrows'⟩ := Sys.Archived.insert (t := (s.act cfg w (.insertEvent e)).2)
              hrows (hkept e rfl) (hjob e rfl) (hok e hins) rfl hfirst
            have hghost : (historyCourse cfg).ghost (.insertEvent e)
                (s.act cfg w (.insertEvent e)).1 (some e) = none := rfl
            rw [hghost]
            exact ⟨⟨stored ++ [e], _, hsplit.trans hsplit', hrows', Or.inl rfl⟩, by simp⟩
        | _ => exact absurd rfl ho
  | turn w hturned =>
      refine ⟨h.frame hturned.log (by rw [hturned.store]) ?_, hkept⟩
      rw [hturned.wait]
  | wait c w hstep =>
      refine ⟨?_, hkept⟩
      rcases (Sys.waitStep_move hstep).history with
        ⟨time, hpc⟩ | ⟨e, hout, hlog, hstore, hbefore, hafter⟩ | ⟨hlog, hstore, hpc⟩
      · have hins : s.wait.pc.inserting cfg = some (cancelledEvent cfg time) := by rw [hpc]; rfl
        rw [Sys.waitStep_insert hpc hstep]
        obtain ⟨stored, pending, hsplit, hrows, hqueued⟩ := h
        rw [hins] at hqueued
        have hfirst := Queued.first stored (Or.inr hqueued)
          (fun hother => hsplit ▸ hturn (inserting_of_at hat ▸ hother) _ hins)
        obtain ⟨hsplit', hrows'⟩ := Sys.Archived.insert
          (t := (s.insertEvent (cancelledEvent cfg time) w).waitAt .terminate)
          hrows rfl rfl (hok _ hins) rfl hfirst
        exact ⟨stored ++ [cancelledEvent cfg time], _, hsplit.trans hsplit', hrows',
          Or.inr rfl⟩
      · exact h.cancel hout hlog hstore hbefore hafter
      · exact h.frame hlog (by rw [hstore]) hpc
  | world l hworld =>
      obtain ⟨-, hwait, hlog, -, hstore⟩ := hworld.tasks
      exact ⟨h.frame hlog (by rw [hstore]) (by rw [hwait]), hkept⟩

/-- What a step does to the log, and to the events that were sent and wait to be
inserted. -/
inductive Sys.Posts (cfg : Config) (s t : Sys) : Label → Prop where
  | sends (w e) (hkept : e.body.isOutput = false) (hjob : e.job = cfg.id)
      (hbefore : s.ctl.inserting = none) (hafter : t.ctl.inserting = some e)
      (hlog : t.log = s.log ++ [e]) (hsent : t.sent = s.sent ++ [e])
      (hpc : t.wait.pc.inserting cfg = s.wait.pc.inserting cfg) : Posts cfg s t (.driver w)
  | shows (w e) (hout : e.body.isOutput = true) (hbefore : s.ctl.inserting = none)
      (hafter : t.ctl.inserting = none) (hlog : t.log = s.log ++ [e])
      (hsent : t.sent = s.sent ++ [e])
      (hpc : t.wait.pc.inserting cfg = s.wait.pc.inserting cfg) : Posts cfg s t (.driver w)
  | inserts (w e) (hbefore : s.ctl.inserting = some e) (hafter : t.ctl.inserting = none)
      (hlog : t.log = s.log) (hsent : t.sent = s.sent)
      (hpc : t.wait.pc.inserting cfg = s.wait.pc.inserting cfg) : Posts cfg s t (.driver w)
  | quiet (w) (hbefore : s.ctl.inserting = none) (hafter : t.ctl.inserting = none)
      (hlog : t.log = s.log) (hsent : t.sent = s.sent)
      (hpc : t.wait.pc.inserting cfg = s.wait.pc.inserting cfg) : Posts cfg s t (.driver w)
  | cancels (c w e) (hlog : t.log = s.log ++ [e])
      (hsent : t.sent = s.sent) (hctl : t.ctl = s.ctl)
      (hbefore : s.wait.pc.inserting cfg = none) (hafter : t.wait.pc.inserting cfg = some e) :
      Posts cfg s t (.wait c w)
  | files (c w e) (hlog : t.log = s.log) (hsent : t.sent = s.sent) (hctl : t.ctl = s.ctl)
      (hbefore : s.wait.pc.inserting cfg = some e) (hafter : t.wait.pc.inserting cfg = none) :
      Posts cfg s t (.wait c w)
  | waits (c w) (hlog : t.log = s.log) (hsent : t.sent = s.sent) (hctl : t.ctl = s.ctl)
      (hbefore : s.wait.pc.inserting cfg = none) (hafter : t.wait.pc.inserting cfg = none) :
      Posts cfg s t (.wait c w)
  | world (l) (hworld : s.WorldMove l t) : Posts cfg s t l

private theorem job_of_at {d : Ledger} {c : Ctl} (hat : (historyCourse cfg).At (d, driver) c) :
    ∀ e ∈ c.inserting, e.job = cfg.id := by
  cases c with
  | run p =>
      cases p with
      | ret next => simp [Ctl.inserting, Driver.inserting]
      | op o k => exact hat.1.2
  | top | returned => simp [Ctl.inserting]

theorem WaitPc.eq_of_inserting {pc : WaitPc} {e : Event} (h : pc.inserting cfg = some e) :
    ∃ time, pc = .cancelInsert time ∧ e = cancelledEvent cfg time := by
  cases pc with
  | cancelInsert time => exact ⟨time, rfl, (Option.some.inj h).symm⟩
  | _ => cases h

theorem Sys.act_sent (cfg : Config) (w : Oracle) {o : Op} (ho : o.emits = false) (s : Sys) :
    (s.act cfg w o).2.sent = s.sent := by
  cases o with
  | send _ | insertEvent _ => cases ho
  | openRawFile | spawnChild | writeRaw => simp only [act]; split <;> rfl
  | upsertSnapshot =>
      simp only [act, upsertSnapshot]
      split
      · rfl
      · split <;> rfl
  | _ => rfl

theorem Sys.Reachable.posts {l : Label} (hs : Sys.Reachable cfg s)
    (hstep : s.step cfg l = some t) : s.Posts cfg t l := by
  have ht : Sys.Reachable cfg t := hs.extend hstep
  obtain ⟨driver, hat⟩ := history_held.holds hs
  obtain ⟨next, hmoved, hat'⟩ := history_held.step hs hat hstep
  have hbefore := inserting_of_at hat
  have hafter := inserting_of_at hat'
  cases hmoved with
  | op w o k hctl hnext =>
      have hmove : s.DriverMove cfg t := hnext ▸ .op w o k hctl
      have hpc : t.wait.pc.inserting cfg = s.wait.pc.inserting cfg :=
        hmove.wait_same hs ht (WaitPc.inserting cfg) rfl
      have hlog : t.log = (s.act cfg w o).2.log := by rw [hnext]
      have hsent : t.sent = (s.act cfg w o).2.sent := by rw [hnext]
      by_cases ho : o.emits = false
      · have hghost : (historyCourse cfg).ghost o (s.act cfg w o).1 driver = driver := by
          cases o <;> first | rfl | cases ho
        have hnone : s.ctl.inserting = none := by
          rw [hctl]
          cases o <;> first | rfl | cases ho
        rw [hghost, hbefore, hnone] at hafter
        rw [(Sys.act_history cfg w ho s).1] at hlog
        rw [Sys.act_sent cfg w ho s] at hsent
        exact .quiet w hnone hafter.symm hlog hsent hpc
      · cases o with
        | send e =>
            have hnone : s.ctl.inserting = none := by rw [hctl]; rfl
            have hghost : (historyCourse cfg).ghost (.send e) (s.act cfg w (.send e)).1 driver =
                if e.body.isOutput then driver else some e := rfl
            rw [hghost, hbefore, hnone] at hafter
            cases hout : e.body.isOutput with
            | true =>
                rw [hout] at hafter
                exact .shows w e hout hnone hafter.symm hlog hsent hpc
            | false =>
                rw [hout] at hafter
                have hjob := job_of_at hat' e hafter.symm
                exact .sends w e hout hjob hnone hafter.symm hlog hsent hpc
        | insertEvent e =>
            have hsome : s.ctl.inserting = some e := by rw [hctl]; rfl
            exact .inserts w e hsome hafter.symm hlog hsent hpc
        | _ => exact absurd rfl ho
  | turn w hturned =>
      obtain ⟨v, htop, -⟩ := hturned.head
      have hnone : s.ctl.inserting = none := by rw [htop]; rfl
      rw [hbefore, hnone] at hafter
      have hpc : t.wait.pc.inserting cfg = s.wait.pc.inserting cfg := by rw [hturned.wait]
      exact .quiet w hnone hafter.symm hturned.log hturned.sent hpc
  | wait c w hwait =>
      have hmove := Sys.waitStep_move hwait
      have hctl : t.ctl = s.ctl := hmove.frame.1
      have hsent : t.sent = s.sent := congrArg Ledger.sent hmove.frame.2.2
      cases hwaits : s.wait.pc.inserting cfg with
      | some e =>
          obtain ⟨time, hpc, -⟩ := WaitPc.eq_of_inserting hwaits
          have hinsert := Sys.waitStep_insert hpc hwait
          have hnone : t.wait.pc.inserting cfg = none := by rw [hinsert]; rfl
          have hlog : t.log = s.log := by rw [hinsert]; rfl
          exact .files c w e hlog hsent hctl hwaits hnone
      | none =>
          rcases hmove.history with
            ⟨time, hpc⟩ | ⟨e, -, hlog, -, -, hsome⟩ | ⟨hlog, -, hpc⟩
          · rw [hpc] at hwaits
            cases hwaits
          · exact .cancels c w e hlog hsent hctl hwaits hsome
          · exact .waits c w hlog hsent hctl hwaits (hpc.trans hwaits)
  | world l hworld => exact .world l hworld

end Steps

/-- What `list_events` makes of rows that events were inserted into. -/
theorem listEvents_of_rows {store : Store} {job : JobId} {stored : List Event}
    (hrows : store.eventRows job = stored.map EventRow.ofEvent) {limit : Nat}
    (hword : limit < 2 ^ 64) (hlimit : stored.length ≤ limit) :
    store.listEvents job limit = .ok stored := by
  have hlen : (store.eventRows job).length ≤ limit := by
    rw [hrows, List.length_map]
    exact hlimit
  change (limited limit (store.eventRows job)).mapM EventRow.decode = _
  rw [limited_of_length_le hword hlen, hrows]
  clear hrows hlimit hlen
  induction stored with
  | nil => rfl
  | cons e rest ih =>
      have hhead : (EventRow.ofEvent e).decode = .ok e := rfl
      rw [List.map_cons, List.mapM_cons, hhead, ih]
      rfl

/-- In a run whose inserts succeed, of events that have a serialisation, and are made in
turn, `list_events` returns at every moment events that were broadcast, `OutputAppended` left
out, from the first one on and in order; and all of them when no event waits to be inserted. -/
theorem stored_history_is_exact {cfg : Config} {ls : List Label} {s : Sys} {before : Store}
    (hstore : cfg.store = some before) (hfresh : ∀ row ∈ before.events, row.jobId ≠ cfg.id)
    (hmeet : Transition.StepsMeet (Sys.step cfg)
      (fun s l => s.InsertsSucceed cfg l ∧ s.InsertsInTurn cfg l) (Sys.init cfg) ls)
    (hrun : Transition.run (Sys.step cfg) (Sys.init cfg) ls = some s) :
    ∃ store stored, s.store = some store ∧ stored <+: persisted s.log ∧
      (∀ limit, limit < 2 ^ 64 → stored.length ≤ limit →
        store.listEvents cfg.id limit = .ok stored) ∧
      (s.AtRest cfg → stored = persisted s.log) := by
  have hinit : (Sys.init cfg).Archived cfg none := by
    have hempty : before.events.filter (fun row => row.jobId = cfg.id) = [] := by
      simpa [List.filter_eq_nil_iff] using hfresh
    exact ⟨[], [], rfl, by simp [Sys.init, hstore, Store.eventRows, Store.upsertJob, hempty],
      Or.inl rfl⟩
  obtain ⟨g, hat, ⟨stored, pending, hsplit, hrows, hqueued⟩, -⟩ :=
    history_held.run_induction
      (fun _ g s => s.Archived cfg g ∧ ∀ e ∈ g, e.body.isOutput = false) hmeet hrun
      ⟨hinit, by simp [historyCourse]⟩ (by
        rintro done g s l t g' hdone ht hat - ⟨h, hkept⟩ ⟨hok, hturn⟩ hmoved
        exact h.step ⟨done, hdone⟩ ht hat hkept hok hturn hmoved)
  obtain ⟨store, hsome, hrows⟩ := Option.map_eq_some_iff.mp hrows
  refine ⟨store, stored, hsome, ⟨pending, hsplit.symm⟩,
    fun limit hword hlimit => listEvents_of_rows hrows hword hlimit, ?_⟩
  rintro ⟨hdriver, hwait⟩
  rw [inserting_of_at hat, hdriver, hwait] at hqueued
  rw [hsplit, hqueued.elim id id]
  simp

def historyConfig : Config := { plainConfig with interpreter := true, store := some {} }

/-- A running job is cancelled, and the interpreter answers a line with a
warning: the driver is about to send it, the wait task to send `Cancelled`. -/
def warnAndCancel : List Label :=
  drive 12 ++ [.cancelCheck, .cancelToken, .wait .go {}, .wait .cancel {}, .wait .go {},
    .arrive .stdout [0x78, newline]] ++ drive 5 ++
    [.driver { interp := .ok [.warning none "w"] }] ++ drive 1

/-- Both send, and insert in the same order. -/
def inTurnRun : List Label :=
  warnAndCancel ++ [.driver {}, .wait .go {}, .driver {}, .wait .go {}]

theorem inTurnRun_runs :
    (Transition.run (Sys.step historyConfig) (Sys.init historyConfig) inTurnRun).isSome =
      true := by
  decide

def inTurnEnd : Sys := Transition.endOf _ _ inTurnRun inTurnRun_runs

theorem stored_history_is_exact_inTurn :
    ∃ store, inTurnEnd.store = some store ∧
      store.listEvents ⟨0⟩ 100 = .ok (persisted inTurnEnd.log) := by
  obtain ⟨store, stored, hstore, -, hlist, hrest⟩ :=
    stored_history_is_exact (show historyConfig.store = some {} from rfl) (by simp) (by decide)
      (Transition.run_endOf (Sys.init historyConfig) inTurnRun inTurnRun_runs)
  have hall : stored = persisted inTurnEnd.log := hrest ⟨by decide, by decide⟩
  have hfew : stored.length = 4 := by
    rw [hall]
    decide
  exact ⟨store, hstore, hall ▸ hlist 100 (by decide) (by omega)⟩

/-- Both send, and insert in the other order. -/
def overtakenRun : List Label :=
  warnAndCancel ++ [.driver {}, .wait .go {}, .wait .go {}, .driver {}]

theorem overtakenRun_runs :
    (Transition.run (Sys.step historyConfig) (Sys.init historyConfig) overtakenRun).isSome =
      true := by
  decide

def overtakenEnd : Sys := Transition.endOf _ _ overtakenRun overtakenRun_runs

theorem stored_history_overtaken :
    Transition.StepsMeet (Sys.step historyConfig) (Sys.InsertsSucceed historyConfig)
      (Sys.init historyConfig) overtakenRun ∧
    overtakenEnd.AtRest historyConfig ∧
    ∃ store, overtakenEnd.store = some store ∧
      store.listEvents ⟨0⟩ 100 ≠ .ok (persisted overtakenEnd.log) := by
  refine ⟨by decide, ⟨by decide, by decide⟩, ?_⟩
  have hkinds : overtakenEnd.store.map (fun store =>
      ((store.listEvents ⟨0⟩ 100).toOption.map (List.map (fun e => e.body.kind)))) =
      some (some ["job_created", "job_started", "cancelled", "warning_detected"]) := by decide
  obtain ⟨store, hstore, hlisted⟩ := Option.map_eq_some_iff.mp hkinds
  refine ⟨store, hstore, fun heq => ?_⟩
  rw [heq] at hlisted
  exact absurd hlisted (by decide)

end Execra
