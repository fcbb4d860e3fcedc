import Execra.Job.History
import Execra.Job.Snapshot
import Execra.Model.Cli
import Execra.Runtime.Forwarding

/-!
What `execra run` puts out. Up to its return it has put out the events of the job that
it has read, and these are the first of those that were sent. The handle may be ready
while there are events to read, and the loop returns as soon as it takes that branch:
what is unread then is never put out. Only for `Finalized` there is a substitute.
-/

namespace Execra

def Printed.isOutput : Printed → Bool
  | .object event => event.body.isOutput
  | .line .. => true
  | .outcome _ => false

def Printed.isFinalized : Printed → Bool
  | .object event => event.body.isFinalized
  | _ => false

def CliLabel.isHandle : CliLabel → Bool
  | .handle _ => true
  | _ => false

/-- The events of one job among others. -/
def eventsOf (job : JobId) (events : List Event) : List Event :=
  events.filter (fun event => event.job = job)

def outputsIn (events : List Event) : List Event := events.filter (fun event => event.body.isOutput)

namespace Cli

/-- The events of the job that were sent. -/
def log (s : Cli) : List Event := ((s.app.rt.jobs[s.index]?).map (fun e => e.sys.log)).getD []

/-- The events of the job that are in the channel and were not read yet. -/
def unread (s : Cli) : List Event :=
  eventsOf s.job (s.app.events.kept.drop (s.events.rx - s.app.events.oldest))

/-- The receiver does not lag: what it reads next is still in the channel. -/
def KeepsUp (s : Cli) : Prop := s.app.events.oldest ≤ s.events.rx

instance (s : Cli) : Decidable s.KeepsUp := inferInstanceAs (Decidable (_ ≤ _))

/-- The branch of the handle is not taken while there is output to read. -/
def ReadsFirst (s : Cli) (l : CliLabel) : Prop := l.isHandle = true → outputsIn s.unread = []

instance (s : Cli) (l : CliLabel) : Decidable (s.ReadsFirst l) :=
  inferInstanceAs (Decidable (_ → _))

/-- All output of the job is put out once and in the order of sending, and in JSON one
`Finalized`, at the end. -/
structure PrintsAll (s : Cli) : Prop where
  outputs : s.printed.filter Printed.isOutput =
    (outputsIn s.log).flatMap (fun event => printEvent event s.json)
  finalized : s.json = true → ∃ before event, s.printed = before ++ [.object event] ∧
    event.body.isFinalized = true ∧ before.any Printed.isFinalized = false

/-- Before it returns, `run` has put out what its stream has given. -/
structure Reads (s : Cli) (history : List Event) : Prop where
  broadcasts : s.app.Broadcasts history
  filter : s.events.filter = some s.job
  entry : ∃ e, s.app.rt.jobs[s.index]? = some e ∧ e.cfg.id = s.job
  position : s.events.rx ≤ history.length
  printed : s.printed = (eventsOf s.job (history.take s.events.rx)).flatMap
    (fun event => printEvent event s.json)
  seen : s.finalizedSeen =
    (eventsOf s.job (history.take s.events.rx)).any (fun event => event.body.isFinalized)

end Cli

/-! What is put out for a list of events. -/

section Printing

variable (json : Bool) (events : List Event)

/-- An output event is put out as one item, and as output. -/
theorem printEvent_output (event : Event) :
    (printEvent event json).filter Printed.isOutput =
      if event.body.isOutput then printEvent event json else [] := by
  obtain ⟨job, body, time⟩ := event
  cases json <;> cases body <;> rfl

theorem printEvent_ne_nil {event : Event} (h : event.body.isOutput = true) :
    printEvent event json ≠ [] := by
  obtain ⟨job, body, time⟩ := event
  cases body with
  | outputAppended => cases json <;> exact List.cons_ne_nil _ _
  | _ => cases h

theorem printed_outputs :
    (events.flatMap (fun event => printEvent event json)).filter Printed.isOutput =
      (outputsIn events).flatMap (fun event => printEvent event json) := by
  induction events with
  | nil => rfl
  | cons event events ih =>
      rw [List.flatMap_cons, List.filter_append, printEvent_output, ih]
      cases houtput : event.body.isOutput with
      | true => simp only [outputsIn, List.filter_cons, houtput, if_true, List.flatMap_cons]
      | false =>
          simp only [outputsIn, List.filter_cons, houtput, Bool.false_eq_true, if_false,
            List.nil_append]

/-- No output is put out if and only if there is none. -/
theorem printed_outputs_eq_nil :
    (outputsIn events).flatMap (fun event => printEvent event json) = [] ↔
      outputsIn events = [] := by
  constructor
  · intro hnothing
    rw [List.flatMap_eq_nil_iff] at hnothing
    rw [List.eq_nil_iff_forall_not_mem]
    intro event hevent
    exact printEvent_ne_nil json (List.mem_filter.mp hevent).2 (hnothing event hevent)
  · intro hnone
    rw [hnone]
    rfl

theorem printed_finalized :
    (events.flatMap (fun event => printEvent event true)).any Printed.isFinalized =
      events.any (fun event => event.body.isFinalized) := by
  rw [List.any_flatMap]
  congr 1
  funext event
  exact Bool.or_false _

end Printing

/-! The events of the job. -/

/-- Once the handle has resolved the job has sent `Finalized`, and this was its last
event. -/
theorem Sys.Reachable.log_ends {cfg : Config} {s : Sys} (hs : Sys.Reachable cfg s)
    (hyields : s.handleYields.isSome = true) : ∃ before event, s.log = before ++ [event] ∧
      event.body.isFinalized = true ∧
      before.any (fun event => event.body.isFinalized) = false := by
  obtain ⟨outcome, hyield⟩ := Option.isSome_iff_exists.mp hyields
  have hsaid : (s.ledger cfg).Announced :=
    Or.inr (Option.isSome_iff_exists.mpr ⟨outcome, hs.value_of_yields outcome hyield⟩)
  obtain ⟨answer, hagreed⟩ := hs.readable.2 hsaid
  obtain ⟨event, hevent, hbody⟩ := hagreed.sent
  obtain ⟨life, hlife, -⟩ := hs.merged.life
  obtain ⟨before, after, hlog⟩ := List.append_of_mem (hs.mem_sent_iff.mp hevent).1
  rw [hlog] at hlife
  have hafter := finalized_last hlife hbody
  rw [hafter] at hlog hlife
  refine ⟨before, event, hlog, ?_, ?_⟩
  · rw [hbody]
    rfl
  · rw [List.any_eq_false]
    intro other hother hfinal
    obtain ⟨result, hresult⟩ := EventBody.eq_finalized hfinal
    obtain ⟨front, rest, hsplit⟩ := List.append_of_mem hother
    rw [hsplit, List.append_assoc, List.cons_append] at hlife
    have hnothing := finalized_last hlife hresult
    exact List.append_ne_nil_of_right_ne_nil _ (List.cons_ne_nil _ _) hnothing

/-! What the loop has read. -/

theorem Runtime.build_jobs {config : RuntimeConfig} {maxConcurrent : Nat} {history : Option Store}
    {rt : Runtime} (h : build config maxConcurrent history = .ok rt) : rt.jobs = [] := by
  cases history with
  | none =>
      cases h
      rfl
  | some found =>
      unfold build at h
      cases hlist : found.resurrectStrandedJobs.1.listJobs 10000 {} with
      | error err =>
          simp only [hlist] at h
          cases h
      | ok jobs =>
          simp only [hlist] at h
          cases h
          rfl

namespace Cli

variable {s t : Cli} {history : List Event}

/-- The transitions of the loop. -/
inductive Move (s : Cli) : CliLabel → Cli → Prop where
  | runtime (l app) (hstep : s.app.stepRuntime l = some app) : Move s (.runtime l) { s with app }
  | again (events) (hround : s.events.round s.app.events = .again events) :
      Move s .event { s with events }
  | ready (event events) (hround : s.events.round s.app.events = .ready event events) :
      Move s .event
        { s with
          events
          finalizedSeen := s.finalizedSeen || event.body.isFinalized
          printed := s.printed ++ printEvent event s.json }
  | handle (now app outcome e) (hstep : s.app.stepRuntime (.job s.index .pollHandle) = some app)
      (he : app.rt.jobs[s.index]? = some e) (hyields : e.sys.handleYields = some outcome) :
      Move s (.handle now)
        { s with app, printed := s.printed ++ s.printEnd outcome now, returned := true }

theorem step_move {l : CliLabel} (h : s.step l = some t) : s.returned = false ∧ s.Move l t := by
  unfold step at h
  split at h
  · cases h
  · next hopen =>
      refine ⟨Bool.eq_false_of_not_eq_true hopen, ?_⟩
      cases l with
      | runtime l =>
          simp only at h
          split at h
          · cases h
          · obtain ⟨app, hstep, rfl⟩ := Option.map_eq_some_iff.mp h
            exact .runtime l app hstep
      | event =>
          simp only at h
          split at h
          · cases h
          · next events hround =>
              cases h
              exact .again events hround
          · next event events hround =>
              cases h
              exact .ready event events hround
      | handle now =>
          obtain ⟨⟨app, outcome⟩, hpolled, rfl⟩ := Option.map_eq_some_iff.mp h
          obtain ⟨app', hstep, hentry⟩ := Option.bind_eq_some_iff.mp hpolled
          obtain ⟨e, he, hanswer⟩ := Option.bind_eq_some_iff.mp hentry
          obtain ⟨answer, hyields, hsame⟩ := Option.map_eq_some_iff.mp hanswer
          cases hsame
          exact .handle now app outcome e hstep he hyields

theorem eventsOf_append (job : JobId) (first second : List Event) :
    eventsOf job (first ++ second) = eventsOf job first ++ eventsOf job second :=
  List.filter_append first second

/-- One event more was read. -/
theorem eventsOf_take_succ {job : JobId} {n : Nat} {event : Event}
    (h : history[n]? = some event) :
    eventsOf job (history.take (n + 1)) =
      eventsOf job (history.take n) ++ eventsOf job [event] := by
  rw [List.take_add_one, h, eventsOf_append]
  rfl

theorem Reads.start {config : RuntimeConfig} {maxConcurrent : Nat} {stored : Option Store}
    {cfg : Config} {upsertOk json : Bool}
    (h : start config maxConcurrent stored cfg upsertOk json = some s) :
    s.Reads [] ∧ s.returned = false := by
  unfold Cli.start at h
  cases hbuild : Runtime.build config maxConcurrent stored with
  | error err =>
      rw [hbuild] at h
      cases h
  | ok rt =>
      rw [hbuild] at h
      simp only at h
      split at h
      · cases h
      · next haccepted =>
          obtain ⟨app, hspawn, rfl⟩ := Option.map_eq_some_iff.mp h
          have hjobs := Runtime.build_jobs hbuild
          have hnew : App.Broadcasts { rt } [] := @App.broadcasts_of_run rt hjobs [] _ rfl
          have hstep : App.step { rt } (.runtime (.spawn cfg upsertOk)) = some app := hspawn
          have hbroadcasts := hnew.step hstep
          have hentry : ∃ e, app.rt.jobs[rt.jobs.length]? = some e ∧ e.cfg.id = cfg.id := by
            obtain ⟨next, hnext, rfl⟩ := Option.map_eq_some_iff.mp hspawn
            simp only [Runtime.step] at hnext
            split at hnext
            · cases hnext
            · cases hnext
              simp only [Runtime.spawn, if_neg haccepted]
              exact ⟨rt.accept cfg, List.getElem?_concat_length, rfl⟩
          have hnothing : eventsOf cfg.id (List.take app.events.tail []) = [] := by
            rw [List.take_nil]
            rfl
          refine ⟨⟨hbroadcasts, rfl, hentry, hbroadcasts.carries.tail.le, ?_, ?_⟩, rfl⟩
          · simp only [hnothing, List.flatMap_nil]
          · simp only [hnothing, List.any_nil]

theorem Reads.runtime (h : s.Reads history) {l : RuntimeLabel} {app : App}
    (hstep : s.app.stepRuntime l = some app) :
    Reads { s with app } (history ++ (s.app.rt.sends l).toList) := by
  have hbroadcasts := h.broadcasts.step (show s.app.step (.runtime l) = some app from hstep)
  obtain ⟨e, he, hid⟩ := h.entry
  have hentry : ∃ e', app.rt.jobs[s.index]? = some e' ∧ e'.cfg.id = s.job := by
    obtain ⟨rt, hrt, rfl⟩ := Option.map_eq_some_iff.mp hstep
    obtain ⟨e', he', hsame | ⟨own, hmove, -⟩⟩ :=
      (Runtime.step_move hrt).entry h.broadcasts.shares he
    · exact ⟨e', he', hsame ▸ hid⟩
    · exact ⟨e', he', hmove.same_cfg ▸ hid⟩
  have htake : (history ++ (s.app.rt.sends l).toList).take s.events.rx =
      history.take s.events.rx := List.take_append_of_le_length h.position
  refine ⟨hbroadcasts, h.filter, hentry, ?_, ?_, ?_⟩
  · rw [List.length_append]
    exact Nat.le_add_right_of_le h.position
  · rw [htake]
    exact h.printed
  · rw [htake]
    exact h.seen

/-- A round of the stream of a receiver that keeps up. -/
theorem Reads.event (h : s.Reads history) (hkeeps : s.KeepsUp) (hmove : s.Move .event t) :
    t.Reads history := by
  have hrounds := EventStream.round_cases h.broadcasts.carries h.filter
  cases hmove with
  | again events hround =>
      rw [hround] at hrounds
      cases hrounds with
      | lagged hbehind => exact absurd hkeeps (Nat.not_le.mpr hbehind)
      | other event hkept hvalue hjob =>
          obtain ⟨hlt, -⟩ := List.getElem?_eq_some_iff.mp hvalue
          have htake : eventsOf s.job (history.take (s.events.rx + 1)) =
              eventsOf s.job (history.take s.events.rx) := by
            rw [eventsOf_take_succ hvalue]
            simp [eventsOf, hjob]
          refine ⟨h.broadcasts, h.filter, h.entry, hlt, ?_, ?_⟩
          · exact htake ▸ h.printed
          · exact htake ▸ h.seen
  | ready event events hround =>
      rw [hround] at hrounds
      cases hrounds with
      | own event hkept hvalue hjob =>
          obtain ⟨hlt, -⟩ := List.getElem?_eq_some_iff.mp hvalue
          have htake : eventsOf s.job (history.take (s.events.rx + 1)) =
              eventsOf s.job (history.take s.events.rx) ++ [event] := by
            rw [eventsOf_take_succ hvalue]
            simp [eventsOf, hjob]
          refine ⟨h.broadcasts, h.filter, h.entry, hlt, ?_, ?_⟩
          · simp only [htake, List.flatMap_append, ← h.printed, List.flatMap_cons,
              List.flatMap_nil, List.append_nil]
          · simp only [htake, List.any_append, ← h.seen, List.any_cons, List.any_nil,
              Bool.or_false]

/-- As long as `run` has not returned it has put out what its stream has given. -/
theorem Reads.step (h : s.Reads history) (hkeeps : s.KeepsUp) {l : CliLabel}
    (hmove : s.Move l t) (hopen : t.returned = false) : ∃ later, t.Reads later := by
  cases hmove with
  | runtime l app hstep => exact ⟨_, h.runtime hstep⟩
  | again events hround => exact ⟨history, h.event hkeeps (.again events hround)⟩
  | ready event events hround => exact ⟨history, h.event hkeeps (.ready event events hround)⟩
  | handle => cases hopen

/-- What is unread, in terms of all events that were sent. -/
theorem Reads.unread_eq (h : s.Reads history) (hkeeps : s.KeepsUp) :
    s.unread = eventsOf s.job (history.drop s.events.rx) := by
  unfold unread
  rw [h.broadcasts.carries.kept, List.drop_drop, Nat.add_sub_cancel' hkeeps]

/-- The branch of the handle: what was read and what was not are all events of the job. -/
theorem Reads.handle (h : s.Reads history) (hkeeps : s.KeepsUp) {now : SystemTime}
    (hmove : s.Move (.handle now) t) :
    ∃ read outcome, t.log = read ++ s.unread ∧ t.json = s.json ∧
      t.printed = read.flatMap (fun event => printEvent event s.json) ++ s.printEnd outcome now ∧
      s.finalizedSeen = read.any (fun event => event.body.isFinalized) ∧
      ∃ before event, t.log = before ++ [event] ∧ event.body.isFinalized = true ∧
        before.any (fun event => event.body.isFinalized) = false := by
  cases hmove with
  | handle now app outcome e hstep he hyields =>
      have hsent : s.app.rt.sends (.job s.index .pollHandle) = none := by
        simp only [Runtime.sends]
        cases s.app.rt.jobs[s.index]? <;> rfl
      have hafter := h.runtime hstep
      rw [hsent, Option.toList_none, List.append_nil] at hafter
      obtain ⟨found, hfound, hid⟩ := hafter.entry
      cases he.symm.trans hfound
      have hsplit : e.sys.log = eventsOf s.job (history.take s.events.rx) ++ s.unread := by
        rw [h.unread_eq hkeeps, ← eventsOf_append, List.take_append_drop]
        rw [← hafter.broadcasts.told.log s.index e he, hid]
        rfl
      have hlog : Option.getD (Option.map (fun e : Entry => e.sys.log) (app.rt.jobs[s.index]?)) [] =
          e.sys.log := by
        rw [he]
        rfl
      obtain ⟨store, -, hreach⟩ := (hafter.broadcasts.shares e (List.mem_of_getElem? he)).2
      refine ⟨_, outcome, hlog.trans hsplit, rfl, ?_, h.seen, ?_⟩
      · rw [← h.printed]
      · obtain ⟨before, event, hends⟩ :=
          hreach.log_ends (by rw [Sys.withStore_handleYields, hyields]; rfl)
        exact ⟨before, event, hlog.trans hends.1, hends.2⟩

/-- Neither the outcome nor a `Finalized` is output. -/
theorem printEnd_output (outcome : Outcome) (now : SystemTime) :
    (s.printEnd outcome now).filter Printed.isOutput = [] := by
  unfold printEnd
  split
  · split <;> rfl
  · rfl

/-- In JSON one `Finalized` is put out, at the end, however the two branches race. -/
theorem Reads.handle_finalized (h : s.Reads history) (hkeeps : s.KeepsUp) {now : SystemTime}
    (hmove : s.Move (.handle now) t) (hjson : t.json = true) :
    ∃ before event, t.printed = before ++ [.object event] ∧ event.body.isFinalized = true ∧
      before.any Printed.isFinalized = false := by
  obtain ⟨read, outcome, hlog, hsame, hprinted, hseen, before, last, hends, hfinal, hbefore⟩ :=
    h.handle hkeeps hmove
  rw [hsame] at hjson
  rw [hjson] at hprinted
  unfold printEnd at hprinted
  rw [if_pos hjson] at hprinted
  cases hsaw : s.finalizedSeen with
  | false =>
      rw [hsaw, if_neg Bool.false_ne_true] at hprinted
      refine ⟨_, _, hprinted, rfl, ?_⟩
      rw [printed_finalized, ← hseen, hsaw]
  | true =>
      -- `Finalized` was read, and it was the last event of the job.
      have hread : read = before ++ [last] := by
        rw [hends] at hlog
        rw [hsaw] at hseen
        rcases List.append_eq_append_iff.mp hlog with ⟨rest, hread, hrest⟩ | ⟨rest, hread, -⟩
        · cases rest with
          | nil =>
              rw [hread, List.append_nil, hbefore] at hseen
              cases hseen
          | cons first rest =>
              obtain ⟨rfl, hnothing⟩ := List.cons_eq_cons.mp hrest
              rw [hread, (List.append_eq_nil_iff.mp hnothing.symm).1]
        · rw [hread, List.any_append, ← hseen] at hbefore
          cases hbefore
      rw [hsaw, if_pos rfl, List.append_nil, hread, List.flatMap_append] at hprinted
      refine ⟨_, last, hprinted, hfinal, ?_⟩
      rw [printed_finalized, hbefore]

/-- The branch of the handle leaves nothing out if and only if no output is unread. -/
theorem Reads.printsAll_iff (h : s.Reads history) (hkeeps : s.KeepsUp) {now : SystemTime}
    (hmove : s.Move (.handle now) t) : t.PrintsAll ↔ outputsIn s.unread = [] := by
  have hfinalized := h.handle_finalized hkeeps hmove
  obtain ⟨read, outcome, hlog, hjson, hprinted, -⟩ := h.handle hkeeps hmove
  have houtputs : t.printed.filter Printed.isOutput =
      (outputsIn read).flatMap (fun event => printEvent event s.json) := by
    rw [hprinted, List.filter_append, printEnd_output, List.append_nil, printed_outputs]
  have hall : (outputsIn t.log).flatMap (fun event => printEvent event s.json) =
      t.printed.filter Printed.isOutput ++
        (outputsIn s.unread).flatMap (fun event => printEvent event s.json) := by
    rw [houtputs, hlog, ← List.flatMap_append]
    exact congrArg _ (List.filter_append read s.unread)
  constructor
  · intro hprints
    have hcomplete := hprints.outputs
    rw [hjson, hall] at hcomplete
    exact (printed_outputs_eq_nil s.json s.unread).mp
      (List.append_right_eq_self.mp hcomplete.symm)
  · intro hnone
    refine ⟨?_, hfinalized⟩
    rw [hjson, hall, hnone]
    exact (List.append_nil _).symm

/-- The loop before its return, and the schedule up to there. -/
theorem reads_of_run {first : Cli} (hfirst : first.Reads history)
    {ls : List CliLabel} (hkeeps : Transition.StepsMeet step (fun s _ => s.KeepsUp) first ls)
    (hrun : Transition.run step first ls = some s) (hrunning : s.returned = false) :
    (∃ later, s.Reads later) ∧ Transition.StepsMeet step ReadsFirst first ls := by
  refine Transition.run_induction_reached (P := fun s _ => s.KeepsUp) (fun done s =>
    s.returned = false → (∃ later, s.Reads later) ∧ Transition.StepsMeet step ReadsFirst first done)
    (fun _ => ⟨⟨history, hfirst⟩, trivial⟩) ?_ hkeeps hrun hrunning
  intro done m l u hm hI hup hstep hrunning
  obtain ⟨hbefore, hmove⟩ := step_move hstep
  obtain ⟨⟨later, hreads⟩, hmeet⟩ := hI hbefore
  refine ⟨hreads.step hup hmove hrunning, hmeet.snoc hm (fun hhandle => ?_)⟩
  cases hmove with
  | handle => cases hrunning
  | _ => cases hhandle

end Cli

/-- When `execra run` returns, it has put out all output of its job if and only if the
branch of the handle was not taken while there was output to read. -/
theorem run_prints_all_iff {config : RuntimeConfig} {maxConcurrent : Nat}
    {history : Option Store} {cfg : Config} {upsertOk json : Bool} {first t : Cli}
    (hstart : Cli.start config maxConcurrent history cfg upsertOk json = some first)
    {ls : List CliLabel} (hrun : Transition.run Cli.step first ls = some t)
    (hreturned : t.returned = true)
    (hkeeps : Transition.StepsMeet Cli.step (fun s _ => s.KeepsUp) first ls) :
    t.PrintsAll ↔ Transition.StepsMeet Cli.step Cli.ReadsFirst first ls := by
  obtain ⟨hfirst, hopen⟩ := Cli.Reads.start hstart
  rcases List.eq_nil_or_concat ls with rfl | ⟨done, l, hlast⟩
  · cases hrun
    rw [hopen] at hreturned
    cases hreturned
  rw [List.concat_eq_append] at hlast
  subst hlast
  obtain ⟨s, hdone, hstep⟩ := (Transition.run_snoc_iff first t done l).mp hrun
  obtain ⟨hmeets, hup⟩ := (Transition.stepsMeet_snoc_iff hdone).mp hkeeps
  obtain ⟨hrunning, hmove⟩ := Cli.step_move hstep
  obtain ⟨⟨later, hreads⟩, hmeet⟩ := Cli.reads_of_run hfirst hmeets hdone hrunning
  rw [Transition.stepsMeet_snoc_iff hdone]
  cases l with
  | runtime | event =>
      cases hmove <;> rw [hrunning] at hreturned <;> cases hreturned
  | handle now =>
      rw [hreads.printsAll_iff hup hmove]
      exact ⟨fun hnone => ⟨hmeet, fun _ => hnone⟩, fun hfirst => hfirst.2 rfl⟩

/-! A job that prints one line, and a loop that reads its events or does not. -/

def printingJob : List CliLabel :=
  (onJob 0 (drive 12 ++ [.arrive .stdout [0x78, newline]] ++ drive 4 ++ leaveQuietly ++
    drive 18)).map .runtime

theorem printing_starts : (Cli.start {} 1 none plainConfig true false).isSome = true := by decide

def printingStart : Cli := (Cli.start {} 1 none plainConfig true false).get printing_starts

/-- All events are read before the handle is asked. -/
def patientRun : List CliLabel := printingJob ++ List.replicate 5 .event ++ [.handle 0]

theorem patientRun_runs :
    (Transition.run Cli.step printingStart patientRun).isSome = true := by
  decide +kernel

theorem run_prints_all_patient :
    (Transition.endOf Cli.step printingStart patientRun patientRun_runs).PrintsAll :=
  (run_prints_all_iff (Option.some_get printing_starts).symm
    (Transition.run_endOf printingStart patientRun patientRun_runs) (by decide +kernel)
    (by decide +kernel)).mpr (by decide +kernel)

/-- The handle is asked first, and is ready. -/
def hastyRun : List CliLabel := printingJob ++ [.handle 0]

theorem hastyRun_runs : (Transition.run Cli.step printingStart hastyRun).isSome = true := by
  decide +kernel

/-- The command returns, and the line of its job is not put out. -/
theorem hasty_run_loses_output : ∃ first t,
    Cli.start {} 1 none plainConfig true false = some first ∧
    Transition.run Cli.step first hastyRun = some t ∧ t.returned = true ∧
    Transition.StepsMeet Cli.step (fun s _ => s.KeepsUp) first hastyRun ∧ ¬ t.PrintsAll := by
  refine ⟨printingStart, Transition.endOf Cli.step printingStart hastyRun hastyRun_runs,
    (Option.some_get printing_starts).symm,
    Transition.run_endOf printingStart hastyRun hastyRun_runs, by decide +kernel,
    by decide +kernel, fun hprints => ?_⟩
  exact absurd hprints.outputs (by decide +kernel)

end Execra
