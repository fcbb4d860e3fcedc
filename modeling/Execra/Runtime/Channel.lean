import Execra.Job.Duties
import Execra.Job.Wire
import Execra.Model.App
import Execra.Runtime.Jobs

/-!
What goes over the event channel. The events of all jobs are sent on one channel;
those of one job are its log, in order. The list of all events that were ever sent
is read off a run; the channel itself holds the last of them.
-/

namespace Execra

theorem EventBody.eq_finalized {body : EventBody} (h : body.isFinalized = true) :
    ∃ outcome, body = .finalized outcome := by
  cases body <;> first | exact ⟨_, rfl⟩ | cases h

/-- A step of a job adds to its log what it sends. -/
theorem Sys.step_log {cfg : Config} {s t : Sys} {l : Label} (hstep : s.step cfg l = some t) :
    t.log = s.log ++ (s.sends cfg l).toList := by
  cases Sys.step_by hstep with
  | driver w hdriver =>
      rcases Sys.driverStep_cases hdriver with ⟨o, k, hctl, rfl⟩ | ⟨v, hctl, hmove⟩
      · simp only [Sys.sends, hctl]
        cases o with
        | spawnChild => simp only [Sys.act]; cases w.spawned <;> simp
        | upsertSnapshot =>
            simp only [Sys.act, Sys.upsertSnapshot]
            repeat' split
            all_goals simp
        | openRawFile | writeRaw => simp only [Sys.act]; split <;> simp
        | _ => simp [Sys.act, Sys.send, Sys.insertEvent]
      · simp only [Sys.sends, hctl]
        cases hmove with
        | op w o k hctl' => rw [hctl] at hctl'; cases hctl'
        | _ => exact (List.append_nil _).symm
  | wait c w hwait =>
      -- Only the first choice is open to the task when it is about to send.
      have hsends : s.sends cfg (.wait c w) = s.sends cfg (.wait .go w) := by
        cases c with
        | go => rfl
        | child | cancel | timer =>
            cases hpc : s.wait.pc <;> simp [Sys.sends, Sys.waitStep, hpc] at hwait ⊢
      rw [hsends]
      cases Sys.waitStep_move hwait <;> simp [Sys.sends, Sys.waitAt, Sys.send, Sys.insertEvent, *]
  | world _ hworld =>
      cases hworld with
      | arrive stream | close stream => cases stream <;> exact (List.append_nil _).symm
      | group l g hl => cases l <;> first | exact (List.append_nil _).symm | cases hl
      | _ => exact (List.append_nil _).symm

theorem Sys.Reachable.sends_job {cfg : Config} {s : Sys} (hs : Sys.Reachable cfg s) {l : Label}
    {event : Event} (hsends : s.sends cfg l = some event) : event.job = cfg.id := by
  cases l with
  | driver w =>
      have hown := hs.sends_own
      simp only [Sys.sends] at hsends
      split at hsends
      · next hctl =>
          rw [hctl] at hown
          cases hsends
          exact of_decide_eq_true hown.1
      · cases hsends
  | wait c w =>
      cases c with
      | go =>
          simp only [Sys.sends] at hsends
          split at hsends
          · cases hsends; rfl
          · cases hsends
      | _ => cases hsends
  | _ => cases hsends

/-- The store is nothing to a step that sends. -/
theorem Sys.sends_withStore (cfg : Config) (s : Sys) (store : Option Store) (l : Label) :
    (s.withStore store).sends cfg l = s.sends cfg l := rfl

theorem Entry.Runs.sends_job {e : Entry} (h : e.Runs) {l : Label} {event : Event}
    (hsends : e.sys.sends e.cfg l = some event) : event.job = e.cfg.id := by
  obtain ⟨store, -, hreach⟩ := h
  exact hreach.sends_job ((e.sys.sends_withStore e.cfg store l).trans hsends)

/-! The events of all jobs. -/

/-- The events of each job among all that were sent. -/
structure Runtime.Told (rt : Runtime) (history : List Event) : Prop where
  distinct : rt.Distinct
  log : ∀ (i : Nat) (e : Entry), rt.jobs[i]? = some e →
    history.filter (fun event => event.job = e.cfg.id) = e.sys.log
  known : ∀ event ∈ history, ∃ e ∈ rt.jobs, e.cfg.id = event.job

namespace Runtime

variable {rt rt' : Runtime} {history : List Event}

/-- One job moves, and sends what is added to its log. -/
theorem Told.set (h : rt.Told history) {i : Nat} {e e' : Entry} (he : rt.jobs[i]? = some e)
    (hcfg : e'.cfg = e.cfg) {sent : Option Event} (hlog : e'.sys.log = e.sys.log ++ sent.toList)
    (hown : ∀ event, sent = some event → event.job = e.cfg.id)
    (hjobs : rt'.jobs = rt.jobs.set i e') : rt'.Told (history ++ sent.toList) := by
  have hsent : ∀ id, sent.toList.filter (fun event => event.job = id) =
      if e.cfg.id = id then sent.toList else [] := by
    intro id
    cases hsome : sent with
    | none => simp
    | some event => by_cases hid : e.cfg.id = id <;> simp [hown event hsome, hid]
  refine ⟨?_, fun j f hf => ?_, fun event hevent => ?_⟩
  · unfold Distinct
    rw [hjobs, map_id_set he hcfg]
    exact h.distinct
  · rw [hjobs] at hf
    rw [List.filter_append, hsent]
    rcases getElem?_of_set hf with ⟨rfl, rfl⟩ | ⟨hij, hf⟩
    · rw [hcfg, if_pos rfl, h.log i e he, hlog]
    · rw [if_neg (fun hid => hij (h.distinct.same he hf hid)), List.append_nil]
      exact h.log j f hf
  · have hmem : event.job ∈ rt.jobs.map (fun e => e.cfg.id) := by
      rcases List.mem_append.mp hevent with hevent | hevent
      · obtain ⟨f, hf, hid⟩ := h.known event hevent
        exact hid ▸ List.mem_map_of_mem hf
      · rw [hown event (by simpa using hevent)]
        exact List.mem_map_of_mem (List.mem_of_getElem? he)
    rw [← map_id_set he hcfg, ← hjobs] at hmem
    obtain ⟨f, hf, hid⟩ := List.mem_map.mp hmem
    exact ⟨f, hf, hid⟩

theorem Told.step (h : rt.Told history) (hshares : rt.Shares) {l : RuntimeLabel}
    (hstep : rt.step l = some rt') : rt'.Told (history ++ (rt.sends l).toList) := by
  have hjob : ∀ {i : Nat} {e : Entry} {own : Label} {s : Sys} {rt' : Runtime} (permit : Permit),
      rt.jobs[i]? = some e → (e.sys.withStore rt.store).step e.cfg own = some s →
      rt'.jobs = rt.jobs.set i { e with sys := s, permit } →
      rt'.Told (history ++ (rt.sends (.job i own)).toList) := by
    intro i e own s rt' permit he hown hjobs
    have hsends : rt.sends (.job i own) = e.sys.sends e.cfg own := by simp [sends, he]
    have hlog := Sys.step_log hown
    rw [hsends]
    refine @Told.set rt rt' history h i e { e with sys := s, permit } he rfl _ hlog ?_ hjobs
    exact fun event hsent => (hshares e (List.mem_of_getElem? he)).2.sends_job hsent
  cases step_move hstep with
  | refuse | openHistory =>
      have hnone : (history ++ (none : Option Event).toList) = history := List.append_nil _
      exact ⟨h.distinct, hnone.symm ▸ h.log, hnone.symm ▸ h.known⟩
  | spawn cfg upsertOk hfresh =>
      have hnone : (history ++ (none : Option Event).toList) = history := List.append_nil _
      have hnew : history.filter (fun event => event.job = cfg.id) = [] := by
        refine List.filter_eq_nil_iff.mpr (fun event hevent hid => ?_)
        obtain ⟨e, he, hjob⟩ := h.known event hevent
        exact ne_of_not_knows hfresh he (hjob.trans (of_decide_eq_true hid))
      refine ⟨(Move.spawn cfg upsertOk hfresh).distinct h.distinct, hnone.symm ▸ fun i e he => ?_,
        hnone.symm ▸ fun event hevent => ?_⟩
      · rcases Nat.lt_or_ge i rt.jobs.length with hold | hlast
        · exact h.log i e ((List.getElem?_append_left hold).symm.trans he)
        · rw [List.getElem?_append_right hlast] at he
          rw [List.mem_singleton.mp (List.mem_of_getElem? he)]
          exact hnew
      · obtain ⟨e, he, hjob⟩ := h.known event hevent
        exact ⟨e, List.mem_append_left _ he, hjob⟩
  | acquire i e w s he hctl hfree hown => exact hjob .held he hown rfl
  | job i e own s he hctl hown => exact hjob e.permit he hown rfl
  | release i e he =>
      exact @Told.set rt _ history h i e { e with permit := .released } he rfl none
        (List.append_nil _).symm (fun event hsent => by cases hsent) rfl

end Runtime

/-! The channel. -/

namespace App

/-- The transitions of an application. -/
inductive Move (s : App) : AppLabel → App → Prop where
  | runtime (l rt) (hstep : s.rt.step l = some rt) :
      Move s (.runtime l)
        { s with
          rt
          events := match s.rt.sends l with
            | some event => s.events.send event
            | none => s.events }
  | bare (builder cfg upsertOk rt) (hstep : s.rt.step (.spawn cfg upsertOk) = some rt) :
      Move s (.task builder cfg upsertOk) { s with rt }
  | forwarded (builder cfg upsertOk rt) (hstep : s.rt.step (.spawn cfg upsertOk) = some rt)
      (hfresh : s.rt.knows cfg.id = false) :
      Move s (.task builder cfg upsertOk)
        { s with
          rt
          tasks := s.tasks ++ [{
            stream := { rx := s.events.tail, filter := some cfg.id }
            forwarder := { job := cfg.id, builder } }] }
  | again (k task stream) (htask : s.tasks[k]? = some task)
      (hopen : task.forwarder.stopped = false)
      (hround : task.stream.round s.events = .again stream) :
      Move s (.receive k) { s with tasks := s.tasks.set k { task with stream } }
  | ready (k task event stream forwarder) (htask : s.tasks[k]? = some task)
      (hround : task.stream.round s.events = .ready event stream)
      (hturn : task.forwarder.turn (.next (some event)) = some forwarder) :
      Move s (.receive k) { s with tasks := s.tasks.set k { stream, forwarder } }
  | tick (k now task forwarder) (htask : s.tasks[k]? = some task)
      (hturn : task.forwarder.turn (.tick now) = some forwarder) :
      Move s (.tick k now) { s with tasks := s.tasks.set k { task with forwarder } }

theorem step_move {s t : App} {l : AppLabel} (h : s.step l = some t) : s.Move l t := by
  cases l with
  | runtime l =>
      obtain ⟨rt, hrt, rfl⟩ := Option.map_eq_some_iff.mp h
      exact .runtime l rt hrt
  | task builder cfg upsertOk =>
      obtain ⟨u, hu, rfl⟩ := Option.map_eq_some_iff.mp h
      obtain ⟨rt, hrt, rfl⟩ := Option.map_eq_some_iff.mp hu
      split
      · exact .bare builder cfg upsertOk rt hrt
      · refine .forwarded builder cfg upsertOk rt hrt ?_
        simp only [Runtime.step] at hrt
        split at hrt
        · cases hrt
        · next hfresh => simpa using hfresh
  | receive k =>
      simp only [step] at h
      split at h
      · cases h
      · next task htask =>
          split at h
          · cases h
          · next hopen =>
              split at h
              · cases h
              · next stream hround =>
                  cases h
                  exact .again k task stream htask (by simpa using hopen) hround
              · next event stream hround =>
                  obtain ⟨forwarder, hturn, rfl⟩ := Option.map_eq_some_iff.mp h
                  exact .ready k task event stream forwarder htask hround hturn
  | tick k now =>
      simp only [step] at h
      split at h
      · cases h
      · next task htask =>
          obtain ⟨forwarder, hturn, rfl⟩ := Option.map_eq_some_iff.mp h
          exact .tick k now task forwarder htask hturn

/-- The events that are sent in a run. -/
def history (start : App) (ls : List AppLabel) : List Event :=
  Transition.observe step (fun s l => (s.sends l).toList) start ls

/-- The channel carries the events of the jobs. -/
structure Broadcasts (s : App) (history : List Event) : Prop where
  carries : s.events.Carries history
  told : s.rt.Told history
  shares : s.rt.Shares

theorem Broadcasts.step {s t : App} {l : AppLabel} {history : List Event}
    (h : s.Broadcasts history) (hstep : s.step l = some t) :
    t.Broadcasts (history ++ (s.sends l).toList) := by
  have hnone : (history ++ (none : Option Event).toList) = history := List.append_nil _
  have hrt : ∀ {l' rt}, s.rt.step l' = some rt →
      rt.Told (history ++ (s.rt.sends l').toList) ∧ rt.Shares := fun hstep =>
    ⟨h.told.step h.shares hstep, (Runtime.step_move hstep).shares h.shares⟩
  cases step_move hstep with
  | runtime l rt hown =>
      obtain ⟨htold, hshares⟩ := hrt hown
      refine ⟨?_, htold, hshares⟩
      simp only [sends]
      cases s.rt.sends l with
      | none => exact hnone.symm ▸ h.carries
      | some event => exact h.carries.send event
  | bare builder cfg upsertOk rt hown | forwarded builder cfg upsertOk rt hown =>
      obtain ⟨htold, hshares⟩ := hrt hown
      exact ⟨hnone.symm ▸ h.carries, htold, hshares⟩
  | again | ready | tick => exact ⟨hnone.symm ▸ h.carries, hnone.symm ▸ h.told, h.shares⟩

theorem broadcasts_of_run {start : Runtime} (hstart : start.jobs = []) {ls : List AppLabel}
    {s : App} (hrun : Transition.run step { rt := start } ls = some s) :
    s.Broadcasts (history { rt := start } ls) := by
  refine Transition.run_induction_reached (P := fun _ _ => True)
    (fun done s => s.Broadcasts (history { rt := start } done)) ?_ ?_
    (Transition.stepsMeet_of_forall (fun _ _ => trivial) _ _) hrun
  · refine ⟨Broadcast.carries_new, ⟨?_, fun i e he => ?_, List.forall_mem_nil _⟩,
      Runtime.shares_of_none hstart⟩
    · simp [Runtime.Distinct, hstart]
    · rw [hstart] at he
      cases he
  · intro done m l t hm h _ hstep
    rw [history, Transition.observe_snoc _ hm]
    exact h.step hstep

/-- Only the last event of a job is its `Finalized`. -/
theorem Broadcasts.last {s : App} {history : List Event} (h : s.Broadcasts history) {p q : Nat}
    {e e' : Event} (hp : history[p]? = some e) (hbody : e.body.isFinalized = true)
    (hq : history[q]? = some e') (hjob : e'.job = e.job) : q ≤ p := by
  by_contra hlt
  obtain ⟨entry, hentry, hid⟩ := h.told.known e (List.mem_of_getElem? hp)
  obtain ⟨i, hi⟩ := List.mem_iff_getElem?.mp hentry
  obtain ⟨store, -, hreach⟩ := (h.shares entry hentry).2
  obtain ⟨hplt, hpe⟩ := List.getElem?_eq_some_iff.mp hp
  have hsplit : history = history.take p ++ e :: history.drop (p + 1) := by
    rw [← hpe, List.getElem_cons_drop, List.take_append_drop]
  have hafter : e' ∈ history.drop (p + 1) := by
    refine List.mem_of_getElem? (i := q - (p + 1)) ?_
    rw [List.getElem?_drop, Nat.add_sub_cancel' (by omega), hq]
  have hlog := h.told.log i entry hi
  rw [hsplit, List.filter_append, List.filter_cons, if_pos (decide_eq_true hid.symm)] at hlog
  obtain ⟨life, hlife, -⟩ := hreach.merged.life
  obtain ⟨outcome, hfinal⟩ := EventBody.eq_finalized hbody
  have hrest := finalized_last (hlog ▸ hlife) hfinal
  exact absurd (hjob.trans hid.symm) (by simpa using List.filter_eq_nil_iff.mp hrest e' hafter)

end App

end Execra
