import Execra.Runtime.Deliveries

/-!
The typed observers. They pick their calls from the events that an observer is handed, so
what was proved of those carries over: each call is made for an event of the job, in order
and none twice. The ticker makes up progress only, for which none of them calls.
-/

namespace Execra

/-! What a log has once. -/

def EventBody.isCreated : EventBody → Bool
  | .jobCreated _ => true
  | _ => false

theorem EventBody.inner {body : EventBody}
    (h : body.isLifecycle = true → body = .cancelled ∨ ∃ code, body = .exited code) :
    ¬ body.isCreated = true ∧ ¬ body.isFinalized = true := by
  cases body with
  | jobCreated | finalized => rcases h rfl with hbody | ⟨code, hbody⟩ <;> cases hbody
  | _ => exact ⟨Bool.false_ne_true, Bool.false_ne_true⟩

theorem LifecycleMiddle.inner {w : List EventBody} (h : LifecycleMiddle w) :
    w.countP EventBody.isCreated = 0 ∧ w.countP EventBody.isFinalized = 0 := by
  obtain ⟨before, code, after, rfl, -, hbefore, hafter⟩ := h
  have hinner : ∀ body ∈ before ++ .exited code :: after,
      ¬ body.isCreated = true ∧ ¬ body.isFinalized = true := by
    intro body hbody
    apply EventBody.inner
    intro hlife
    rcases List.mem_append.mp hbody with hbody | hbody
    · exact Or.inl (hbefore body hbody hlife)
    · rcases List.mem_cons.mp hbody with rfl | hbody
      · exact Or.inr ⟨code, rfl⟩
      · rw [hafter body hbody] at hlife
        cases hlife
  exact ⟨List.countP_eq_zero.mpr (fun body hbody => (hinner body hbody).1),
    List.countP_eq_zero.mpr (fun body hbody => (hinner body hbody).2)⟩

/-- A log begins with the only `JobCreated` and has at most one `Finalized`. -/
theorem Life.once_of_shape {life : Life} {w : List EventBody} (h : life.Shape w) :
    w.countP EventBody.isCreated = min 1 w.length ∧ w.countP EventBody.isFinalized ≤ 1 := by
  cases life with
  | fresh =>
      subst h
      exact ⟨rfl, Nat.zero_le 1⟩
  | created =>
      obtain ⟨command, rfl⟩ := h
      exact ⟨rfl, Nat.zero_le 1⟩
  | failed =>
      obtain ⟨command, outcome, rfl⟩ := h
      exact ⟨rfl, le_rfl⟩
  | started c =>
      obtain ⟨command, pid, before, rfl, -, hbefore⟩ := h
      have hinner : ∀ body ∈ before, ¬ body.isCreated = true ∧ ¬ body.isFinalized = true :=
        fun body hbody => EventBody.inner (fun hlife => Or.inl (hbefore body hbody hlife))
      have hcreated := List.countP_eq_zero.mpr (fun body hbody => (hinner body hbody).1)
      have hfinal := List.countP_eq_zero.mpr (fun body hbody => (hinner body hbody).2)
      simp [List.countP_cons, EventBody.isCreated, EventBody.isFinalized, hcreated, hfinal]
  | exited =>
      obtain ⟨command, pid, middle, rfl, hmiddle⟩ := h
      obtain ⟨hcreated, hfinal⟩ := hmiddle.inner
      simp [List.countP_cons, EventBody.isCreated, EventBody.isFinalized, hcreated, hfinal]
  | finalized =>
      obtain ⟨command, pid, middle, outcome, rfl, hmiddle⟩ := h
      obtain ⟨hcreated, hfinal⟩ := hmiddle.inner
      simp [List.countP_cons, EventBody.isCreated, EventBody.isFinalized, hcreated, hfinal]

theorem Sys.Reachable.log_once {cfg : Config} {s : Sys} (hs : Sys.Reachable cfg s) :
    (s.log.filterMap onCreated).length = min 1 s.log.length ∧
      (s.log.filterMap onFinalized).length ≤ 1 := by
  obtain ⟨life, hrun, -⟩ := hs.merged.life
  have honce := Life.once_of_shape (Life.shape_of_run hrun)
  rw [List.countP_map, List.countP_map, List.length_map] at honce
  rw [List.length_filterMap_eq_countP, List.length_filterMap_eq_countP]
  have hcreated : (fun e : Event => (onCreated e).isSome) = EventBody.isCreated ∘ Event.body := by
    funext e
    unfold onCreated
    cases hbody : e.body <;> simp [hbody, EventBody.isCreated]
  have hfinal : (fun e : Event => (onFinalized e).isSome) =
      EventBody.isFinalized ∘ Event.body := by
    funext e
    unfold onFinalized
    cases hbody : e.body <;> simp [hbody, EventBody.isFinalized]
  rw [hcreated, hfinal]
  exact honce

namespace Forwarder

variable {f : Forwarder} {i : Nat} {α : Type} {observer : Event → Option α}

/-- What was made up is progress. -/
def MakesUpProgress (f : Forwarder) : Prop :=
  ∀ d ∈ f.delivered, d.synthetic = true → ∃ progress, d.event.body = .progressUpdated progress

theorem calls_eq (h : f.MakesUpProgress)
    (hobserver : ∀ event progress, event.body = .progressUpdated progress → observer event = none) :
    f.calls observer i = (f.received (.observer i)).filterMap observer := by
  unfold calls received
  rw [List.filterMap_map, List.filterMap_filter, List.filterMap_filter]
  refine List.filterMap_congr (fun d hd => ?_)
  by_cases hr : d.recipient = .observer i
  · cases hsynthetic : d.synthetic with
    | false => simp [hr]
    | true =>
        obtain ⟨progress, hprogress⟩ := h d hd hsynthetic
        simp [hr, hobserver d.event progress hprogress]
  · simp [hr]

end Forwarder

/-! The observers of a task among others. -/

theorem ForwardTask.Turn.makesUp {history : List Event} {oldest : Nat} {task task' : ForwardTask}
    (h : task.Turn history oldest task') (hmade : task.forwarder.MakesUpProgress) :
    task'.forwarder.MakesUpProgress := by
  cases h with
  | rest | skip => exact hmade
  | take event stream forwarder hround hturn =>
      obtain ⟨state, rfl⟩ := Forwarder.turn_event hturn
      intro d hd hsynthetic
      rcases List.mem_append.mp hd with hold | hnew
      · exact hmade d hold hsynthetic
      · rw [TaskBuilder.deliver_eq] at hnew
        obtain ⟨r, -, rfl⟩ := List.mem_map.mp hnew
        cases hsynthetic
  | tick now forwarder hturn =>
      obtain ⟨state, more, rfl, hmore⟩ := Forwarder.turn_synthetic hturn
      intro d hd hsynthetic
      rcases List.mem_append.mp hd with hold | hnew
      · exact hmade d hold hsynthetic
      · exact (hmore d hnew).2

namespace App

variable {start : Runtime} {ls : List AppLabel} {s : App} {k : Nat} {task : ForwardTask}

theorem makesUp_of_run (hstart : start.jobs = [])
    (hrun : Transition.run step { rt := start } ls = some s)
    (htask : s.tasks[k]? = some task) : task.forwarder.MakesUpProgress := by
  refine Transition.run_induction_reached (P := fun _ _ => True)
    (fun _ s => ∀ task, s.tasks[k]? = some task → task.forwarder.MakesUpProgress)
    (fun _ htask => by cases htask) ?_
    (Transition.stepsMeet_of_forall (fun _ _ => trivial) _ _) hrun task htask
  intro done m l t hm h _ hstep task' htask'
  have hcases := (step_move hstep).task (broadcasts_of_run hstart hm)
    (fun _ => tuned_of_run hstart hm) htask'
  generalize m.sends l = sent at hcases
  cases hcases with
  | spawned builder cfg hevents hfresh hnew =>
      subst hnew
      exact List.forall_mem_nil _
  | turned task htask hevents hturn => exact hturn.makesUp (h task htask)
  | sent event htask hevents => exact h task' htask

end App

section Observers

theorem onCreated_job {event : Event} {job : JobId} (h : onCreated event = some job) :
    event.job = job := by
  unfold onCreated at h
  split at h
  · exact Option.some.inj h
  · cases h

variable {start : Runtime} {ls : List AppLabel} {s : App} {k i : Nat} {task : ForwardTask}

/-- The typed observers of a task: `on_created` and `on_finalized` call at most once, and
every call is made for an event of the job, in the order of its events. When the forwarder
has returned, `on_finalized` has called once, with the outcome of the job; and if no event
of the job was thrown away before it was read, `on_created` has called once and the others
once for each event of theirs. -/
theorem typed_observers_call (hstart : start.jobs = [])
    (hrun : Transition.run App.step { rt := start } ls = some s)
    (htask : s.tasks[k]? = some task) {e : Entry} (he : e ∈ s.rt.jobs)
    (hid : e.cfg.id = task.forwarder.job) (hi : i < task.forwarder.builder.observers) :
    (task.forwarder.calls onCreated i).length ≤ 1 ∧
    (task.forwarder.calls onFinalized i).length ≤ 1 ∧
    (task.forwarder.calls onCreated i).Sublist (e.sys.log.filterMap onCreated) ∧
    (task.forwarder.calls onFinalized i).Sublist (e.sys.log.filterMap onFinalized) ∧
    (task.forwarder.calls onOutput i).Sublist (e.sys.log.filterMap onOutput) ∧
    (task.forwarder.calls onInterpreterError i).Sublist
      (e.sys.log.filterMap onInterpreterError) ∧
    (task.forwarder.stopped = true →
      (∃ outcome, e.sys.job.outcome = some outcome ∧
        task.forwarder.calls onFinalized i = [outcome]) ∧
      (Transition.StepsMeet App.step (fun s l => s.loses k l = false) { rt := start } ls →
        task.forwarder.calls onCreated i = [e.cfg.id] ∧
        task.forwarder.calls onOutput i = e.sys.log.filterMap onOutput ∧
        task.forwarder.calls onInterpreterError i = e.sys.log.filterMap onInterpreterError)) := by
  have hr : Recipient.observer i ∈ task.forwarder.builder.recipients :=
    List.mem_append_left _ (List.mem_map_of_mem (List.mem_range.mpr hi))
  have hmade := App.makesUp_of_run hstart hrun htask
  obtain ⟨store, -, hreach⟩ := ((App.broadcasts_of_run hstart hrun).shares e he).2
  obtain ⟨hcreated, hfinal⟩ : (e.sys.log.filterMap onCreated).length = min 1 e.sys.log.length ∧
      (e.sys.log.filterMap onFinalized).length ≤ 1 := hreach.log_once
  have hsublist := App.received_sublist hstart hrun htask he hid hr
  have hcalls {α : Type} (observer : Event → Option α)
      (hobserver : ∀ event progress, event.body = .progressUpdated progress →
        observer event = none) := Forwarder.calls_eq (i := i) hmade hobserver
  rw [hcalls onCreated (fun event progress h => by simp [onCreated, h]),
    hcalls onFinalized (fun event progress h => by simp [onFinalized, h]),
    hcalls onOutput (fun event progress h => by simp [onOutput, h]),
    hcalls onInterpreterError (fun event progress h => by simp [onInterpreterError, h])]
  refine ⟨?_, ?_, hsublist.filterMap _, hsublist.filterMap _, hsublist.filterMap _,
    hsublist.filterMap _, fun hstopped => ?_⟩
  · exact ((hsublist.filterMap onCreated).length_le.trans hcreated.le).trans (min_le_left _ _)
  · exact (hsublist.filterMap onFinalized).length_le.trans hfinal
  · obtain ⟨before, event, hreceived, hlogged, hlast⟩ :=
      App.received_last hstart hrun htask hstopped he hid hr
    refine ⟨?_, fun hmet => ?_⟩
    · obtain ⟨outcome, hbody⟩ := EventBody.eq_finalized hlast
      refine ⟨outcome, hreach.outcome_of_finalized hlogged hbody, ?_⟩
      have hone := (hsublist.filterMap onFinalized).length_le.trans hfinal
      have hcall : onFinalized event = some outcome := by rw [onFinalized, hbody]
      rw [hreceived, List.filterMap_append, List.filterMap_cons_some hcall,
        List.filterMap_nil] at hone ⊢
      rw [List.length_append, List.length_singleton] at hone
      have hnone : before.filterMap onFinalized = [] := List.length_eq_zero_iff.mp (by omega)
      rw [hnone, List.nil_append]
    · have hall := App.received_all hstart hrun htask he hid hr hmet (Or.inl hstopped)
      rw [hall]
      refine ⟨?_, rfl, rfl⟩
      have hsome : 0 < e.sys.log.length := List.length_pos_of_mem hlogged
      obtain ⟨job, hjob⟩ := List.length_eq_one_iff.mp (hcreated.trans (min_eq_left hsome))
      obtain ⟨event, hevent, hcall⟩ := List.mem_filterMap.mp (hjob ▸ List.mem_singleton_self job)
      rw [← App.log_of_task hstart hrun he hid, List.mem_filter] at hevent
      rw [hjob, hid, ← onCreated_job hcall, of_decide_eq_true hevent.2]

theorem typed_observers_call_read :
    readTask.forwarder.calls onFinalized 0 = [.succeeded none []] ∧
    readTask.forwarder.calls onCreated 0 = [readTask.forwarder.job] := by
  have hjob : ∃ e ∈ readEnd.rt.jobs, e.cfg.id = readTask.forwarder.job := by decide +kernel
  obtain ⟨e, he, hid⟩ := hjob
  obtain ⟨-, -, -, -, -, -, hstopped⟩ := typed_observers_call (i := 0) rfl
    (Transition.run_endOf _ readRun readRun_runs) (Option.some_get _).symm he hid
    (by decide +kernel)
  obtain ⟨-, hall⟩ := hstopped (by decide +kernel)
  have hcreated := (hall (by decide +kernel)).1
  rw [hid] at hcreated
  exact ⟨by decide +kernel, hcreated⟩

end Observers

end Execra
