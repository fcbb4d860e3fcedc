import Execra.Foundation.Subscriber
import Execra.Runtime.Forwarding

/-!
What the recipients of a task get. The observers and the channel of a `TaskBuilder`
are handed the same events, each in the order in which the job has sent them and none
of them twice. They are all that the job sends unless the channel throws one of them
away before the forwarder has read it. Synthetic progress is not counted, and the
functions of the builder return: one that panics ends the forwarder, and nobody is
handed anything from there on.
-/

namespace Execra

/-! Who gets an event. -/

/-- The recipients of a task, in the order in which they are served. -/
def TaskBuilder.recipients (b : TaskBuilder) : List Recipient :=
  (List.range b.observers).map .observer ++ b.channel.toList.map .channel

theorem TaskBuilder.deliver_eq (b : TaskBuilder) (event : Event) (synthetic : Bool) :
    b.deliver event synthetic = b.recipients.map (fun r => ⟨r, event, synthetic⟩) := by
  simp [deliver, recipients, Function.comp_def]

/-- Nobody is served twice. -/
theorem TaskBuilder.recipients_nodup (b : TaskBuilder) : b.recipients.Nodup := by
  refine List.nodup_append.mpr ⟨?_, ?_, ?_⟩
  · exact List.nodup_range.map (fun i j hij => Recipient.observer.inj hij)
  · cases b.channel <;> simp
  · intro r hr r' hr'
    obtain ⟨i, -, rfl⟩ := List.mem_map.mp hr
    obtain ⟨name, -, rfl⟩ := List.mem_map.mp hr'
    exact Recipient.noConfusion

/-- The events of the job that `r` has been handed. -/
def Forwarder.received (f : Forwarder) (r : Recipient) : List Event :=
  (f.delivered.filter (fun d => d.recipient = r ∧ d.synthetic = false)).map Delivery.event

namespace Forwarder

variable {f f' : Forwarder} {r : Recipient}

theorem received_deliver {b : TaskBuilder} (hr : r ∈ b.recipients) (event : Event) :
    ((b.deliver event false).filter (fun d => d.recipient = r ∧ d.synthetic = false)).map
      Delivery.event = [event] := by
  have hone : b.recipients.filter (fun r' => r' = r) = [r] := by
    rw [List.filter_eq, List.count_eq_one_of_mem b.recipients_nodup hr, List.replicate_one]
  rw [b.deliver_eq, List.filter_map]
  simp [Function.comp_def, hone]

theorem received_of_event {event : Event} (h : f.turn (.next (some event)) = some f')
    (hr : r ∈ f.builder.recipients) : f'.received r = f.received r ++ [event] := by
  obtain ⟨state, rfl⟩ := turn_event h
  simp only [received, List.filter_append, List.map_append, received_deliver hr]

/-- A tick delivers synthetic events only, and they are progress. -/
theorem turn_synthetic {now : SystemTime} (h : f.turn (.tick now) = some f') :
    ∃ state more, f' = { f with state, delivered := f.delivered ++ more } ∧
      ∀ d ∈ more, d.synthetic = true ∧ ∃ progress, d.event.body = .progressUpdated progress := by
  have hopen := turn_open h
  unfold turn at h
  rw [hopen, if_neg (by simp)] at h
  cases hcreep : f.builder.creep with
  | none => rw [hcreep] at h; cases h
  | some creep =>
      rw [hcreep] at h
      obtain ⟨cs, -, rfl⟩ := Option.map_eq_some_iff.mp h
      rcases cs.tick with ⟨_ | value, cs'⟩
      · exact ⟨_, [], by rw [List.append_nil], List.forall_mem_nil _⟩
      · refine ⟨_, _, rfl, fun d hd => ?_⟩
        rw [TaskBuilder.deliver_eq] at hd
        obtain ⟨r, -, rfl⟩ := List.mem_map.mp hd
        exact ⟨rfl, _, rfl⟩

theorem received_of_tick {now : SystemTime} (h : f.turn (.tick now) = some f') :
    f'.received r = f.received r := by
  obtain ⟨state, more, rfl, hsynthetic⟩ := turn_synthetic h
  have hnone : more.filter (fun d => d.recipient = r ∧ d.synthetic = false) = [] := by
    refine List.filter_eq_nil_iff.mpr (fun d hd => ?_)
    simp [(hsynthetic d hd).1]
  simp only [received, List.filter_append, hnone, List.append_nil]

end Forwarder

namespace ForwardTask

variable {history : List Event} {oldest : Nat} {task task' : ForwardTask} {event : Event}

/-- A turn of a forwarder, in terms of the events that were sent. -/
inductive Turn (history : List Event) (oldest : Nat) (task : ForwardTask) : ForwardTask → Prop where
  | rest : Turn history oldest task task
  | skip (stream)
      (hround : task.stream.Rounds task.forwarder.job oldest history (.again stream)) :
      Turn history oldest task { task with stream }
  | take (event stream forwarder)
      (hround : task.stream.Rounds task.forwarder.job oldest history (.ready event stream))
      (hturn : task.forwarder.turn (.next (some event)) = some forwarder) :
      Turn history oldest task { stream, forwarder }
  | tick (now forwarder) (hturn : task.forwarder.turn (.tick now) = some forwarder) :
      Turn history oldest task { task with forwarder }

/-- The events the forwarder hands on. -/
def keeps (task : ForwardTask) (event : Event) : Bool := event.job = task.forwarder.job

/-- Where the receiver stands, and what each recipient has got. -/
def Got (task : ForwardTask) (P : Nat → List Event → Prop) : Prop :=
  ∀ r ∈ task.forwarder.builder.recipients, P task.stream.rx (task.forwarder.received r)

/-- In a turn the receiver passes over a gap, or over one event, which all recipients get
if it is one of the job's. -/
theorem Turn.got {P : Nat → List Event → Prop} (h : task.Turn history oldest task')
    (hskip : ∀ pos got, pos < oldest → P pos got → P oldest got)
    (htake : ∀ pos got event, history[pos]? = some event → P pos got →
      P (pos + 1) (got ++ if task.keeps event then [event] else []))
    (hgot : task.Got P) : task'.Got P := by
  cases h with
  | rest => exact hgot
  | skip stream hround =>
      intro r hr
      cases hround with
      | lagged hbehind => exact hskip _ _ hbehind (hgot r hr)
      | other event hkept hvalue hjob =>
          have hother : task.keeps event = false := by simp [keeps, hjob]
          have htaken := htake _ _ event hvalue (hgot r hr)
          rw [hother, if_neg Bool.false_ne_true, List.append_nil] at htaken
          exact htaken
  | take event stream forwarder hround hturn =>
      obtain ⟨state, rfl⟩ := Forwarder.turn_event hturn
      intro r hr
      have hreceived := Forwarder.received_of_event hturn hr
      cases hround with
      | own event hkept hvalue hjob =>
          have hown : task.keeps event = true := by simp [keeps, hjob]
          have htaken := htake _ _ event hvalue (hgot r hr)
          rw [if_pos hown] at htaken
          rw [hreceived]
          exact htaken
  | tick now forwarder hturn =>
      intro r hr
      have hreceived := Forwarder.received_of_tick (r := r) hturn
      obtain ⟨state, delivered, rfl⟩ := Forwarder.turn_ticked hturn
      rw [hreceived]
      exact hgot r hr

theorem Turn.keeps_eq (h : task.Turn history oldest task') : task'.keeps = task.keeps := by
  cases h with
  | rest | skip => rfl
  | take event stream forwarder hround hturn =>
      obtain ⟨state, rfl⟩ := Forwarder.turn_event hturn
      rfl
  | tick now forwarder hturn =>
      obtain ⟨state, delivered, rfl⟩ := Forwarder.turn_ticked hturn
      rfl

end ForwardTask

/-! A task among others. -/

namespace App

/-- What a step is to task `k`. -/
inductive TaskMove (k : Nat) (s : App) (history : List Event) (t : App) (task' : ForwardTask) :
    Option Event → Prop where
  | spawned (builder) (cfg : Config) (hevents : t.events = s.events)
      (hfresh : s.rt.knows cfg.id = false)
      (htask : task' = {
        stream := { rx := s.events.tail, filter := some cfg.id }
        forwarder := { job := cfg.id, builder } }) : TaskMove k s history t task' none
  | turned (task) (htask : s.tasks[k]? = some task) (hevents : t.events = s.events)
      (hturn : task.Turn history s.events.oldest task') : TaskMove k s history t task' none
  | sent (event) (htask : s.tasks[k]? = some task') (hevents : t.events = s.events.send event) :
      TaskMove k s history t task' (some event)

section Steps

variable {k : Nat} {s t : App} {l : AppLabel} {history : List Event} {task' : ForwardTask}

theorem Move.task (h : s.Move l t) (hb : s.Broadcasts history)
    (htuned : ∀ task, s.tasks[k]? = some task → task.Tuned history)
    (htask' : t.tasks[k]? = some task') : TaskMove k s history t task' (s.sends l) := by
  have hset : ∀ {j : Nat} {task x : ForwardTask}, s.tasks[j]? = some task →
      (s.tasks.set j x)[k]? = some task' →
      (task.Tuned history → task.Turn history s.events.oldest x) →
      ∃ task, s.tasks[k]? = some task ∧ task.Turn history s.events.oldest task' := by
    intro j task x htask hget hturn
    rcases Runtime.getElem?_of_set hget with ⟨rfl, rfl⟩ | ⟨-, hsame⟩
    · exact ⟨task, htask, hturn (htuned task htask)⟩
    · exact ⟨task', hsame, .rest⟩
  cases h with
  | runtime l rt hstep =>
      have htask : s.tasks[k]? = some task' := htask'
      simp only [sends]
      cases hsends : s.rt.sends l with
      | none => exact .turned task' htask rfl .rest
      | some event => exact .sent event htask rfl
  | bare => exact .turned task' htask' rfl .rest
  | forwarded builder cfg upsertOk rt hstep hfresh =>
      rcases Nat.lt_or_ge k s.tasks.length with hold | hnew
      · rw [List.getElem?_append_left hold] at htask'
        exact .turned task' htask' rfl .rest
      · rw [List.getElem?_append_right hnew] at htask'
        obtain rfl := List.mem_singleton.mp (List.mem_of_getElem? htask')
        exact .spawned builder cfg rfl hfresh rfl
  | again j task stream htask hopen hround =>
      obtain ⟨task, hfound, hturn⟩ := hset htask htask' (fun htuned =>
        .skip stream (hround ▸ EventStream.round_cases hb.carries htuned.filter))
      exact .turned task hfound rfl hturn
  | ready j task event stream forwarder htask hround hturn =>
      obtain ⟨task, hfound, hturn⟩ := hset htask htask' (fun htuned =>
        .take event stream forwarder
          (hround ▸ EventStream.round_cases hb.carries htuned.filter) hturn)
      exact .turned task hfound rfl hturn
  | tick j now task forwarder htask hturn =>
      obtain ⟨task, hfound, hturn⟩ := hset htask htask' (fun _ => .tick now forwarder hturn)
      exact .turned task hfound rfl hturn

/-- The step sends an event, and an event of the job of task `k` has to make room for
it before its forwarder has read it. -/
def loses (k : Nat) (s : App) (l : AppLabel) : Bool :=
  (s.sends l).isSome &&
    s.tasks[k]?.any (fun task => (s.events.overruns task.stream.rx).any task.keeps)

theorem overruns_of_loses (h : s.loses k l = false) : s.overruns k l = false := by
  by_contra hoverruns
  simp only [overruns, Bool.not_eq_false, Bool.and_eq_true, Option.any_eq_true] at hoverruns
  obtain ⟨hsends, task, htask, event, hevent, hends⟩ := hoverruns
  have hkeeps : task.keeps event = true := (Bool.and_eq_true_iff.mp hends).1
  have hloses : s.loses k l = true := by simp [loses, hsends, htask, hevent, hkeeps]
  exact absurd (hloses.symm.trans h) Bool.true_eq_false_eq_False

end Steps

/-- What the recipients of task `k` have got. -/
def Delivers (k : Nat) (s : App) (history : List Event) : Prop :=
  ∀ task, s.tasks[k]? = some task → task.Got (Broadcast.Follows task.keeps history)

/-- They have got all there was for them. -/
def DeliversAll (k : Nat) (s : App) (history : List Event) : Prop :=
  ∀ task, s.tasks[k]? = some task → task.Got (Broadcast.Whole task.keeps s.events history)

section Steps

variable {k : Nat} {s t : App} {l : AppLabel} {history : List Event}

theorem Delivers.step (h : s.Delivers k history) (hb : s.Broadcasts history)
    (htuned : ∀ task, s.tasks[k]? = some task → task.Tuned history) (hmove : s.Move l t) :
    t.Delivers k (history ++ (s.sends l).toList) := by
  intro task' htask'
  have hcases := hmove.task hb htuned htask'
  generalize s.sends l = sent at hcases
  cases hcases with
  | spawned builder cfg hevents hfresh hnew =>
      subst hnew
      exact fun r hr => List.nil_sublist _
  | turned task htask hevents hturn =>
      rw [Option.toList_none, List.append_nil, hturn.keeps_eq]
      exact hturn.got (fun pos got hbehind hgot => hgot.skip (Nat.le_of_lt hbehind))
        (fun pos got event hvalue hgot => hgot.take hvalue) (h task htask)
  | sent event htask hevents =>
      exact fun r hr => (h task' htask r hr).send (htuned task' htask).rx

theorem DeliversAll.step (h : s.DeliversAll k history) (hb : s.Broadcasts history)
    (htuned : ∀ task, s.tasks[k]? = some task → task.Tuned history)
    (hkeeps : s.loses k l = false) (hmove : s.Move l t) :
    t.DeliversAll k (history ++ (s.sends l).toList) := by
  intro task' htask'
  have hcases := hmove.task hb htuned htask'
  generalize hsent : s.sends l = sent at hcases
  cases hcases with
  | spawned builder cfg hevents hfresh hnew =>
      subst hnew
      rw [Option.toList_none, List.append_nil, hevents]
      intro r hr
      have holdest := hb.oldest_le
      have hlength := hb.carries.tail
      refine ⟨?_, fun p event hp hgone _ => ?_⟩
      · change [] = (history.take s.events.tail).filter _
        rw [hlength, List.take_length, eq_comm, List.filter_eq_nil_iff]
        intro event hevent hid
        obtain ⟨e, he, hjob⟩ := hb.told.known event hevent
        exact Runtime.ne_of_not_knows hfresh he (hjob.trans (of_decide_eq_true hid))
      · have hpast : s.events.tail ≤ p := hp
        omega
  | turned task htask hevents hturn =>
      rw [Option.toList_none, List.append_nil, hturn.keeps_eq, hevents]
      exact hturn.got (fun pos got hbehind hgot => hgot.skip hbehind)
        (fun pos got event hvalue hgot => hgot.take hvalue) (h task htask)
  | sent event htask hevents =>
      rw [hevents]
      refine fun r hr => (h task' htask r hr).send (by decide) (htuned task' htask).rx hb.carries
        (fun found hfound => ?_)
      simpa [loses, hsent, htask, hfound] using hkeeps

end Steps

theorem tuned_of_run {start : Runtime} (hstart : start.jobs = []) {ls : List AppLabel} {s : App}
    (hrun : Transition.run step { rt := start } ls = some s) {k : Nat} {task : ForwardTask}
    (htask : s.tasks[k]? = some task) : task.Tuned (history { rt := start } ls) := by
  by_cases hmet : Transition.StepsMeet step (fun s l => s.overruns k l = false)
      { rt := start } ls
  · exact ((holds_or_misses hstart k hrun).1 hmet task htask).2
  · obtain ⟨found, hfound, -, htuned⟩ := (holds_or_misses hstart k hrun).2 hmet
    cases htask.symm.trans hfound
    exact htuned

theorem delivers_of_run {start : Runtime} (hstart : start.jobs = []) (k : Nat)
    {ls : List AppLabel} {s : App}
    (hrun : Transition.run step { rt := start } ls = some s) :
    s.Delivers k (history { rt := start } ls) := by
  refine Transition.run_induction_reached (P := fun _ _ => True)
    (fun done s => Delivers k s (history { rt := start } done)) (fun _ htask => by cases htask) ?_
    (Transition.stepsMeet_of_forall (fun _ _ => trivial) _ _) hrun
  intro done m l t hm h _ hstep
  rw [history, Transition.observe_snoc _ hm]
  exact h.step (broadcasts_of_run hstart hm) (fun _ => tuned_of_run hstart hm) (step_move hstep)

theorem deliversAll_of_run {start : Runtime} (hstart : start.jobs = []) {k : Nat}
    {ls : List AppLabel} {s : App}
    (hrun : Transition.run step { rt := start } ls = some s)
    (hmet : Transition.StepsMeet step (fun s l => s.loses k l = false) { rt := start } ls) :
    s.DeliversAll k (history { rt := start } ls) := by
  refine Transition.run_induction_reached
    (fun done s => DeliversAll k s (history { rt := start } done)) (fun _ htask => by cases htask)
    ?_ hmet hrun
  intro done m l t hm h hkeeps hstep
  rw [history, Transition.observe_snoc _ hm]
  exact h.step (broadcasts_of_run hstart hm) (fun _ => tuned_of_run hstart hm) hkeeps
    (step_move hstep)

/-- A forwarder that is through with its receiver leaves nothing of its job behind. -/
theorem Broadcasts.nothing_left {s : App} {history : List Event} (h : s.Broadcasts history)
    {task : ForwardTask} (hkept : task.Keeps history s.events.oldest)
    (hdrained : task.Drained s.events) : (history.drop task.stream.rx).filter task.keeps = [] := by
  rcases hdrained with hstopped | hempty
  · cases hkept with
    | waiting hopen | coming p event hopen => rw [hopen] at hstopped; cases hstopped
    | ended p event hp hends hpast =>
        obtain ⟨hjob, hfinal⟩ := Bool.and_eq_true_iff.mp hends
        refine List.filter_eq_nil_iff.mpr (fun other hother hkeeps => ?_)
        obtain ⟨q, hq⟩ := List.mem_iff_getElem?.mp hother
        rw [List.getElem?_drop] at hq
        have hle := h.last hp hfinal hq
          ((of_decide_eq_true hkeeps).trans (of_decide_eq_true hjob).symm)
        omega
  · have hreads := h.carries.recv task.stream.rx
    generalize s.events.recv task.stream.rx = found at hempty hreads
    cases hreads with
    | lagged | value => cases hempty
    | empty _ hread => rw [List.drop_of_length_le hread, List.filter_nil]

section Received

variable {start : Runtime} (hstart : start.jobs = []) {ls : List AppLabel} {s : App}
  (hrun : Transition.run step { rt := start } ls = some s) {k : Nat} {task : ForwardTask}
  (htask : s.tasks[k]? = some task) {e : Entry} (he : e ∈ s.rt.jobs)
  (hid : e.cfg.id = task.forwarder.job) {r : Recipient}
  (hr : r ∈ task.forwarder.builder.recipients)

include hstart hrun

/-- The log of the job of a task. -/
theorem log_of_task (he : e ∈ s.rt.jobs) (hid : e.cfg.id = task.forwarder.job) :
    (history { rt := start } ls).filter task.keeps = e.sys.log := by
  obtain ⟨i, hi⟩ := List.mem_iff_getElem?.mp he
  rw [← (broadcasts_of_run hstart hrun).told.log i e hi, hid]
  rfl

include htask

/-- A forwarder that has returned has not lost `Finalized`. -/
theorem ended_of_stopped (hstopped : task.forwarder.stopped = true) : task.Ended := by
  have hcases := holds_or_misses hstart k hrun
  by_cases hmet : Transition.StepsMeet step (fun s l => s.overruns k l = false)
      { rt := start } ls
  · obtain ⟨hkept, -⟩ := hcases.1 hmet task htask
    cases hkept with
    | waiting hopen | coming p event hopen => rw [hopen] at hstopped; cases hstopped
    | ended p event hp hends hpast hended => exact hended
  · obtain ⟨found, hfound, hlost, -⟩ := hcases.2 hmet
    cases htask.symm.trans hfound
    rw [hlost.1] at hstopped
    cases hstopped

include he hid hr

theorem received_sublist : (task.forwarder.received r).Sublist e.sys.log := by
  have hsome := delivers_of_run hstart k hrun task htask r hr
  rw [← log_of_task hstart hrun he hid]
  exact hsome.trans ((List.take_sublist _ _).filter _)

variable (hmet : Transition.StepsMeet step (fun s l => s.loses k l = false) { rt := start } ls)

include hmet

/-- What the recipients have got, and what they may still get. -/
theorem received_append : task.forwarder.received r ++
    ((history { rt := start } ls).drop task.stream.rx).filter task.keeps = e.sys.log := by
  rw [← log_of_task hstart hrun he hid, (deliversAll_of_run hstart hrun hmet task htask r hr).got,
    ← List.filter_append, List.take_append_drop]

theorem received_all (hdrained : task.Drained s.events) :
    task.forwarder.received r = e.sys.log := by
  have hkeeps : Transition.StepsMeet step (fun s l => s.overruns k l = false)
      { rt := start } ls := by
    rw [Transition.stepsMeet_iff] at hmet ⊢
    exact fun done l rest m hls hm => overruns_of_loses (hmet done l rest m hls hm)
  have hkept := ((holds_or_misses hstart k hrun).1 hkeeps task htask).1
  have hsplit := received_append hstart hrun htask he hid hr hmet
  rwa [(broadcasts_of_run hstart hrun).nothing_left hkept hdrained, List.append_nil] at hsplit

end Received

end App

section Deliveries

variable {start : Runtime} {ls : List AppLabel} {s : App} {k : Nat} {task : ForwardTask}

/-- The observers and the channel of a task, whose functions return, are handed the events
of its job in the order in which they were sent, and none of them twice. As long as no
event of the job is thrown away before the forwarder has read it, what they have been
handed is a beginning of what was sent, and it is all of it when the forwarder has read
its receiver to the end. -/
theorem deliveries_in_order (hstart : start.jobs = [])
    (hrun : Transition.run App.step { rt := start } ls = some s)
    (htask : s.tasks[k]? = some task) {e : Entry} (he : e ∈ s.rt.jobs)
    (hid : e.cfg.id = task.forwarder.job) {r : Recipient}
    (hr : r ∈ task.forwarder.builder.recipients) :
    (task.forwarder.received r).Sublist e.sys.log ∧
    (Transition.StepsMeet App.step (fun s l => s.loses k l = false) { rt := start } ls →
      task.forwarder.received r <+: e.sys.log ∧
      (task.Drained s.events → task.forwarder.received r = e.sys.log)) :=
  ⟨App.received_sublist hstart hrun htask he hid hr, fun hmet =>
    ⟨⟨_, App.received_append hstart hrun htask he hid hr hmet⟩,
      App.received_all hstart hrun htask he hid hr hmet⟩⟩

theorem deliveries_in_order_read : ∃ e ∈ readEnd.rt.jobs,
    readTask.forwarder.received (.observer 0) = e.sys.log := by
  have hjob : ∃ e ∈ readEnd.rt.jobs, e.cfg.id = readTask.forwarder.job := by decide +kernel
  obtain ⟨e, he, hid⟩ := hjob
  have hall := (deliveries_in_order (r := .observer 0) rfl
    (Transition.run_endOf _ readRun readRun_runs) (Option.some_get _).symm he hid
    (by decide +kernel)).2 (by decide +kernel)
  exact ⟨e, he, hall.2 (Or.inl (by decide +kernel))⟩

/-! Awaiting a task. -/

theorem Forwarder.received_ends {f : Forwarder} {event : Event} {r : Recipient}
    (hlast : f.builder.deliver event false <:+ f.delivered) (hr : r ∈ f.builder.recipients) :
    ∃ before, f.received r = before ++ [event] := by
  obtain ⟨before, hbefore⟩ := hlast
  refine ⟨(before.filter (fun d => d.recipient = r ∧ d.synthetic = false)).map Delivery.event, ?_⟩
  rw [received, ← hbefore, List.filter_append, List.map_append, received_deliver hr]

theorem App.finalized_of_handle (hstart : start.jobs = [])
    (hrun : Transition.run App.step { rt := start } ls = some s) {job : JobId} {outcome : Outcome}
    (hhandle : s.handle job = some outcome) :
    ∃ e ∈ s.rt.jobs, e.cfg.id = job ∧ e.sys.job.state = .finalized ∧
      e.sys.job.outcome = some outcome ∧
      ∀ event ∈ e.sys.log, event.body.isFinalized = true → event.body = .finalized outcome := by
  obtain ⟨e, hfound, hyields⟩ := Option.bind_eq_some_iff.mp hhandle
  have he := List.mem_of_find?_eq_some hfound
  have hid : e.cfg.id = job := by simpa using List.find?_some hfound
  obtain ⟨store, -, hreach⟩ := ((App.broadcasts_of_run hstart hrun).shares e he).2
  have houtcome : e.sys.job.outcome = some outcome := hreach.outcome_of_yields hyields
  have hfinal := hreach.readable.1.outcome.mp (Option.isSome_iff_exists.mpr ⟨_, houtcome⟩)
  refine ⟨e, he, hid, hfinal, houtcome, fun event hlogged hlast => ?_⟩
  obtain ⟨other, hbody⟩ := EventBody.eq_finalized hlast
  have hsame := (hreach.outcome_of_finalized hlogged hbody).symm.trans houtcome
  rw [hbody, Option.some.inj hsame]

/-- The last that a recipient has been handed when the forwarder has returned is the
`Finalized` of the job. -/
theorem App.received_last (hstart : start.jobs = [])
    (hrun : Transition.run App.step { rt := start } ls = some s)
    (htask : s.tasks[k]? = some task) (hstopped : task.forwarder.stopped = true) {e : Entry}
    (he : e ∈ s.rt.jobs) (hid : e.cfg.id = task.forwarder.job) {r : Recipient}
    (hr : r ∈ task.forwarder.builder.recipients) :
    ∃ before event, task.forwarder.received r = before ++ [event] ∧ event ∈ e.sys.log ∧
      event.body.isFinalized = true := by
  obtain ⟨-, event, hends, hlast⟩ := App.ended_of_stopped hstart hrun htask hstopped
  obtain ⟨before, hreceived⟩ := Forwarder.received_ends hlast hr
  have hlogged : event ∈ e.sys.log := by
    apply (App.received_sublist hstart hrun htask he hid hr).subset
    rw [hreceived]
    exact List.mem_append_right _ (List.mem_singleton_self event)
  exact ⟨before, event, hreceived, hlogged, (Bool.and_eq_true_iff.mp hends).2⟩

/-- A forwarder that has returned has handed out `Finalized` with the outcome of its job,
and nothing after it. -/
theorem App.served_of_stopped (hstart : start.jobs = [])
    (hrun : Transition.run App.step { rt := start } ls = some s)
    (htask : s.tasks[k]? = some task) (hstopped : task.forwarder.stopped = true) {e : Entry}
    (he : e ∈ s.rt.jobs) (hid : e.cfg.id = task.forwarder.job) {outcome : Outcome}
    (hfinal : ∀ event ∈ e.sys.log, event.body.isFinalized = true →
      event.body = .finalized outcome) {r : Recipient}
    (hr : r ∈ task.forwarder.builder.recipients) :
    (∃ before event, task.forwarder.received r = before ++ [event] ∧
      event.body = .finalized outcome) ∧
    (Transition.StepsMeet App.step (fun s l => s.loses k l = false) { rt := start } ls →
      task.forwarder.received r = e.sys.log) := by
  refine ⟨?_, fun hmet =>
    App.received_all hstart hrun htask he hid hr hmet (Or.inl hstopped)⟩
  obtain ⟨before, event, hreceived, hlogged, hlast⟩ :=
    App.received_last hstart hrun htask hstopped he hid hr
  exact ⟨before, event, hreceived, hfinal event hlogged hlast⟩

/-- Forwarder `k` is that of the job and of the builder. -/
def App.Serves (k : Nat) (job : JobId) (builder : TaskBuilder) (s : App) : Prop :=
  ∃ task, s.tasks[k]? = some task ∧ task.forwarder.job = job ∧ task.forwarder.builder = builder

section Serves

variable {t : App} {l : AppLabel} {job : JobId} {builder : TaskBuilder}

theorem App.Serves.set (h : s.Serves k job builder) {j : Nat} {task' : ForwardTask}
    (htask : s.tasks[j]? = some task) (hjob : task'.forwarder.job = task.forwarder.job)
    (hbuilder : task'.forwarder.builder = task.forwarder.builder) :
    App.Serves k job builder { s with tasks := s.tasks.set j task' } := by
  obtain ⟨found, hfound, hown, hits⟩ := h
  by_cases hj : j = k
  · subst hj
    cases htask.symm.trans hfound
    exact ⟨task', List.getElem?_set_self (List.getElem?_eq_some_iff.mp htask).1,
      hjob.trans hown, hbuilder.trans hits⟩
  · exact ⟨found, (List.getElem?_set_ne hj).trans hfound, hown, hits⟩

theorem App.Serves.step (h : s.Serves k job builder) (hmove : s.Move l t) :
    t.Serves k job builder := by
  cases hmove with
  | runtime | bare => exact h
  | forwarded builder cfg upsertOk rt hstep hfresh =>
      obtain ⟨found, hfound, hits⟩ := h
      refine ⟨found, ?_, hits⟩
      rw [List.getElem?_append_left (List.getElem?_eq_some_iff.mp hfound).1, hfound]
  | again j task stream htask hopen hround => exact h.set htask rfl rfl
  | ready j task event stream forwarder htask hround hturn =>
      obtain ⟨state, rfl⟩ := Forwarder.turn_event hturn
      exact h.set htask rfl rfl
  | tick j now task forwarder htask hturn =>
      obtain ⟨state, delivered, rfl⟩ := Forwarder.turn_ticked hturn
      exact h.set htask rfl rfl

theorem App.Serves.run (h : s.Serves k job builder)
    (hrun : Transition.run App.step s ls = some t) : t.Serves k job builder :=
  Transition.invariant_of_run (P := fun _ _ => True) (I := App.Serves k job builder)
    (fun _ _ _ h _ hstep => h.step (App.step_move hstep)) h
    (Transition.stepsMeet_of_forall (fun _ _ => trivial) _ _) hrun

end Serves

/-- What a call of `spawn_with_forwarding` returns, and where it leaves the application. -/
inductive App.Spawns (s : App) (builder : TaskBuilder) (cfg : Config) (upsertOk : Bool)
    (error : String) : Except Error (JobId × Option Nat) → App → Prop where
  | refused (hrefused : (s.rt.store.isSome && !upsertOk) = true) :
      Spawns s builder cfg upsertOk error (.error (.store error)) s
  | bare (m) (haccepted : (s.rt.store.isSome && !upsertOk) = false)
      (hnobody : builder.recipients = []) :
      Spawns s builder cfg upsertOk error (.ok (cfg.id, none)) m
  | forwarded (m) (haccepted : (s.rt.store.isSome && !upsertOk) = false)
      (hserves : m.Serves s.tasks.length cfg.id builder) :
      Spawns s builder cfg upsertOk error (.ok (cfg.id, some s.tasks.length)) m

theorem TaskBuilder.recipients_of_not_forwards {b : TaskBuilder} (h : b.forwards = false) :
    b.recipients = [] := by
  simp only [forwards, Bool.or_eq_false_iff, bne_eq_false_iff_eq, Option.isSome_eq_false_iff,
    Option.isNone_iff_eq_none] at h
  obtain ⟨⟨hchannel, hobservers⟩, -⟩ := h
  rw [recipients, hchannel, hobservers]
  rfl

theorem App.spawns_of_step {m : App} {builder : TaskBuilder} {cfg : Config} {upsertOk : Bool}
    (error : String) (hcall : s.step (.task builder cfg upsertOk) = some m) :
    s.Spawns builder cfg upsertOk error (s.spawned builder cfg upsertOk error) m := by
  obtain ⟨u, hu, rfl⟩ := Option.map_eq_some_iff.mp hcall
  obtain ⟨rt, hrt, rfl⟩ := Option.map_eq_some_iff.mp hu
  simp only [App.spawned]
  cases hrefused : s.rt.store.isSome && !upsertOk with
  | true =>
      have hsame : rt = s.rt := by
        simp only [Runtime.step, Runtime.spawn, hrefused] at hrt
        split at hrt
        · cases hrt
        · exact (Option.some.inj hrt).symm
      subst hsame
      rw [Bool.true_or, if_pos rfl, if_pos rfl]
      exact .refused hrefused
  | false =>
      rw [Bool.false_or, if_neg Bool.false_ne_true]
      cases hforwards : builder.forwards with
      | false =>
          rw [if_neg Bool.false_ne_true]
          exact .bare _ hrefused (TaskBuilder.recipients_of_not_forwards hforwards)
      | true =>
          rw [if_pos rfl, Bool.not_true, if_neg Bool.false_ne_true]
          exact .forwarded _ hrefused ⟨_, List.getElem?_concat_length, rfl, rfl⟩

section Awaited

variable {m t : App} {before after : List AppLabel} {builder : TaskBuilder} {cfg : Config}
  {upsertOk panicked : Bool} {error : String} {outcome : Outcome}

/-- Awaiting a `TaskBuilder`. A call of `spawn` whose upsert fails comes to `SpawnFailed` and
leaves no job behind. Any other await comes to an outcome only after the job has been
finalized with it; and, unless one of the builder's functions has panicked, after every
observer and the channel have been handed `Finalized` with it, which is the last they are
handed, and all that the job sent if none of its events was thrown away. -/
theorem awaited_after_finalized (hstart : start.jobs = [])
    (hbefore : Transition.run App.step { rt := start } before = some s)
    (hcall : s.step (.task builder cfg upsertOk) = some m)
    (hafter : Transition.run App.step m after = some t)
    (hawaited : t.intoFuture panicked (s.spawned builder cfg upsertOk error) = some outcome) :
    ((s.rt.store.isSome = true ∧ upsertOk = false) ∧ m = s ∧
      outcome = .failed (.spawnFailed ("store: " ++ error)) none []) ∨
    ((s.rt.store.isSome = true → upsertOk = true) ∧
      ∃ e ∈ t.rt.jobs, e.cfg.id = cfg.id ∧ e.sys.job.state = .finalized ∧
        e.sys.job.outcome = some outcome ∧
        (panicked = false → ∀ r ∈ builder.recipients, ∃ task,
          t.tasks[s.tasks.length]? = some task ∧ task.forwarder.job = cfg.id ∧
          (∃ earlier event, task.forwarder.received r = earlier ++ [event] ∧
            event.body = .finalized outcome) ∧
          (Transition.StepsMeet App.step (fun u l => u.loses s.tasks.length l = false)
              { rt := start } (before ++ .task builder cfg upsertOk :: after) →
            task.forwarder.received r = e.sys.log))) := by
  have hrun : Transition.run App.step { rt := start }
      (before ++ .task builder cfg upsertOk :: after) = some t := by
    rw [Transition.run_append, hbefore, Option.bind_some, Transition.run_cons, hcall,
      Option.bind_some, hafter]
  have hspawns := App.spawns_of_step error hcall
  generalize s.spawned builder cfg upsertOk error = spawned at hspawns hawaited
  cases hspawns with
  | refused hrefused =>
      exact Or.inl ⟨by simpa using hrefused, rfl, (Option.some.inj hawaited).symm⟩
  | bare _ haccepted hnobody =>
      obtain ⟨e, he, hid, hstate, houtcome, -⟩ := App.finalized_of_handle hstart hrun hawaited
      refine Or.inr ⟨by simpa using haccepted, e, he, hid, hstate, houtcome, fun _ r hr => ?_⟩
      rw [hnobody] at hr
      cases hr
  | forwarded _ haccepted hserves =>
      obtain ⟨task, htask, hjob, hbuilder⟩ := hserves.run hafter
      have hhandle : t.handle cfg.id = some outcome ∧
          (panicked = false → task.forwarder.stopped = true) := by
        cases panicked with
        | true => exact ⟨hawaited, fun h => by cases h⟩
        | false =>
            simp only [App.intoFuture, htask, App.awaited, hjob, Option.bind_some,
              Bool.false_eq_true, ↓reduceIte] at hawaited
            split at hawaited
            · next hstopped => exact ⟨hawaited, fun _ => hstopped⟩
            · cases hawaited
      obtain ⟨e, he, hid, hstate, houtcome, hfinal⟩ :=
        App.finalized_of_handle hstart hrun hhandle.1
      refine Or.inr ⟨by simpa using haccepted, e, he, hid, hstate, houtcome, fun hcalm r hr => ?_⟩
      exact ⟨task, htask, hjob, App.served_of_stopped hstart hrun htask (hhandle.2 hcalm) he
        (hid.trans hjob.symm) hfinal (hbuilder ▸ hr)⟩

theorem awaited_after_finalized_read : ∃ e ∈ readEnd.rt.jobs, ∃ task ∈ readEnd.tasks,
    e.sys.job.outcome = some (.succeeded none []) ∧
      task.forwarder.received (.observer 0) = e.sys.log := by
  have hrun : Transition.run App.step { rt := soloRuntime }
      (.task { observers := 1 } plainConfig true ::
        (forwardedRun.tail ++ List.replicate 4 (.receive 0))) = some readEnd :=
    Transition.run_endOf _ readRun readRun_runs
  obtain ⟨m, hcall, hafter⟩ := Option.bind_eq_some_iff.mp hrun
  have hawaited : readEnd.intoFuture false
      (App.spawned { rt := soloRuntime } { observers := 1 } plainConfig true "") =
      some (.succeeded none []) := by decide +kernel
  rcases awaited_after_finalized rfl (Transition.run_nil _) hcall hafter hawaited with
    ⟨-, -, hfailed⟩ | ⟨-, e, he, -, -, houtcome, hserved⟩
  · cases hfailed
  · obtain ⟨task, htask, -, -, hall⟩ := hserved rfl (.observer 0) (by decide)
    exact ⟨e, he, task, List.mem_of_getElem? htask, houtcome, hall (by decide +kernel)⟩

end Awaited

end Deliveries

end Execra
