import Execra.Job.Typing
import Execra.Runtime.Registry

/-!
Everything a runtime tells and stores can be read back. The clock, the operating system
and the interpreters answer with values of the source's types that can be written, with no
time before the epoch and no path that is not UTF-8; then so are the events that are
broadcast and the values in the columns of the store, and the text that is made of one
gives it back.
-/

namespace Execra

/-- A value comes back from its tree. -/
def ComesBack {α : Type} (write : α → Option JsonTree) (read : JsonTree → Option α) (value : α) :
    Prop :=
  ∃ tree, write value = some tree ∧ read tree = some value

/-- Every column of JSON comes back. -/
structure Store.ComesBack (text : UuidText) (store : Store) : Prop where
  commands : ∀ row ∈ store.jobs,
    Execra.ComesBack (fun spec => some (CommandSpec.serialize spec)) CommandSpec.deserialize
      row.commandJson.value
  outcomes : ∀ row ∈ store.jobs, ∀ json ∈ row.outcomeJson,
    Execra.ComesBack Outcome.serialize Outcome.deserialize json.value
  events : ∀ row ∈ store.events,
    Execra.ComesBack (Event.serialize text) (Event.deserialize text) row.payload.value
  findings : ∀ row ∈ store.findings,
    Execra.ComesBack Finding.serialize Finding.deserialize row.findingJson.value

theorem Event.Sendable.comesBack (text : UuidText) {e : Event} (h : e.Sendable) :
    ComesBack (Event.serialize text) (Event.deserialize text) e := by
  obtain ⟨tree, hwrite, hdenotes⟩ := Event.denotes text h.wellTyped
  exact ⟨tree, hwrite, hdenotes.read⟩

theorem Store.Legible.comesBack (text : UuidText) {store : Store} (h : store.Legible) :
    store.ComesBack text where
  commands row hrow := ⟨_, rfl, (CommandSpec.denotes (h.jobs row hrow).command).read⟩
  outcomes row hrow json hjson := by
    obtain ⟨tree, hwrite, hdenotes⟩ := Outcome.denotes ((h.jobs row hrow).outcome json hjson)
    exact ⟨tree, hwrite, hdenotes.read⟩
  events row hrow := (h.events row hrow).comesBack text
  findings row hrow := by
    obtain ⟨tree, hwrite, hdenotes⟩ := Finding.denotes (h.findings row hrow)
    exact ⟨tree, hwrite, hdenotes.read⟩

/-- What a runtime is given in a step. -/
def RuntimeLabel.WellTyped : RuntimeLabel → Prop
  | .spawn cfg _ => cfg.WellTyped
  | .job _ l => l.WellTyped
  | .release _ | .openHistory => True

namespace Runtime

structure Typed (rt : Runtime) : Prop where
  jobs : ∀ e ∈ rt.jobs, e.cfg.WellTyped ∧ e.sys.Typed
  store : ∀ store ∈ rt.store, store.Legible

variable {rt rt' start : Runtime} {config : RuntimeConfig} {maxConcurrent : Nat}
  {history : Option Store}

theorem typed_build (hbuild : build config maxConcurrent history = .ok start)
    (hhistory : ∀ store ∈ history, store.Legible) : start.Typed := by
  have hjobs : start.jobs = [] := build_jobs hbuild
  refine ⟨fun e he => ?_, fun store hstore => ?_⟩
  · rw [hjobs] at he
    cases he
  · cases history with
    | none =>
        cases hbuild
        cases hstore
    | some found =>
        have hrecovered := (hhistory found rfl).resurrect
        cases hlist : found.resurrectStrandedJobs.1.listJobs 10000 {} with
        | error err => simp [build, hlist, bind, Except.bind] at hbuild
        | ok jobs =>
            simp only [build, hlist, bind, Except.bind, pure, Except.pure,
              Except.ok.injEq] at hbuild
            subst hbuild
            cases hstore
            exact hrecovered

theorem Typed.set (h : rt.Typed) {store : Option Store} {permits : Nat}
    (hstore : ∀ found ∈ store, found.Legible) (i : Nat) {e : Entry}
    (he : e.cfg.WellTyped ∧ e.sys.Typed) :
    Typed { rt with store, permits, jobs := rt.jobs.set i e } := by
  refine ⟨fun found hfound => ?_, hstore⟩
  rcases List.mem_or_eq_of_mem_set hfound with hold | rfl
  · exact h.jobs found hold
  · exact he

theorem Typed.step (h : rt.Typed) {l : RuntimeLabel} (hl : l.WellTyped)
    (hstep : rt.step l = some rt') : rt'.Typed := by
  have hjob {i : Nat} {e : Entry} {label : Label} {s : Sys} (he : rt.jobs[i]? = some e)
      (hown : (e.sys.withStore rt.store).step e.cfg label = some s) (hlabel : label.WellTyped) :
      (e.cfg.WellTyped ∧ s.Typed) ∧ s.StoreLegible := by
    obtain ⟨hcfg, htyped⟩ := h.jobs e (List.mem_of_getElem? he)
    have hsame : (e.sys.withStore rt.store).Typed :=
      ⟨htyped.ctl, htyped.wait, htyped.snapshot, htyped.log⟩
    obtain ⟨hafter, hstore⟩ := hsame.step hcfg hlabel h.store hown
    exact ⟨⟨hcfg, hafter⟩, hstore⟩
  cases step_move hstep with
  | refuse => exact h
  | spawn cfg upsertOk hfresh =>
      have hcfg : (rt.accept cfg).cfg.WellTyped := ⟨hl.id, hl.spec, hl.createdAt, hl.phaseIds⟩
      have hinit := Sys.typed_init hcfg
      refine ⟨fun e he => ?_, fun store hstore => ?_⟩
      · rcases List.mem_append.mp he with hold | hnew
        · exact h.jobs e hold
        · cases List.mem_singleton.mp hnew
          exact ⟨hcfg, hinit⟩
      · obtain ⟨before, hbefore, rfl⟩ := Option.map_eq_some_iff.mp hstore
        exact (h.store before hbefore).upsertJob hinit.snapshot
  | acquire i e w s he hctl hfree hown =>
      obtain ⟨hentry, hstore⟩ := hjob he hown hl
      exact h.set hstore i hentry
  | job i e label s he hctl hown =>
      obtain ⟨hentry, hstore⟩ := hjob he hown hl
      exact h.set hstore i hentry
  | release i e he => exact h.set h.store i (h.jobs e (List.mem_of_getElem? he))
  | openHistory store hstore =>
      refine ⟨h.jobs, fun found hfound => ?_⟩
      cases hfound
      exact (h.store store hstore).resurrect

theorem typed_of_run (h : start.Typed) {ls : List RuntimeLabel} (hls : ∀ l ∈ ls, l.WellTyped)
    (hrun : Transition.run step start ls = some rt) : rt.Typed :=
  Transition.invariant_of_run (fun _ _ _ hm hl hstep => Typed.step hm hl hstep) h
    (Transition.stepsMeet_of_labels hls start) hrun

end Runtime

/-- An interpreter may report any number: in a world that answers with values of the
source's types, whose times are not before the epoch, every event of every job, and every
JSON text in the store, comes back as it was, and every progress that is told or shown is
read as a fraction between 0 and 1. -/
theorem told_values_come_back {config : RuntimeConfig} {maxConcurrent : Nat}
    {history : Option Store} {start rt : Runtime} {ls : List RuntimeLabel} (text : UuidText)
    (hbuild : Runtime.build config maxConcurrent history = .ok start)
    (hhistory : ∀ store ∈ history, store.Legible) (hls : ∀ l ∈ ls, l.WellTyped)
    (hrun : Transition.run Runtime.step start ls = some rt) :
    (∀ e ∈ rt.jobs, ∀ event ∈ e.sys.log,
      ComesBack (Event.serialize text) (Event.deserialize text) event) ∧
    (∀ store ∈ rt.store, store.ComesBack text) ∧
    ∀ e ∈ rt.jobs, e.sys.snapshot.progress.InUnit ∧
      ∀ event ∈ e.sys.log, ∀ progress, event.body = .progressUpdated progress →
        progress.InUnit := by
  have htyped := Runtime.typed_of_run (Runtime.typed_build hbuild hhistory) hls hrun
  refine ⟨fun e he event hevent => ?_, fun store hstore => ?_, fun e he => ⟨?_, ?_⟩⟩
  · exact ((htyped.jobs e he).2.log event hevent).comesBack text
  · exact (htyped.store store hstore).comesBack text
  · exact Progress.inUnit_of_normal (htyped.jobs e he).2.snapshot.progress.normal
  · intro event hevent progress hprogress
    have hbody := ((htyped.jobs e he).2.log event hevent).body
    rw [hprogress] at hbody
    exact Progress.inUnit_of_normal hbody.normal

/-- A command with an interpreter, whose phases get UUIDs. -/
def reportingConfig : Config :=
  { plainConfig with interpreter := true, phaseIds := fun n => ⟨n % 2 ^ 128⟩ }

/-- The interpreter reports a fraction that is no number, and one beyond every number. -/
def strangeReply : Oracle :=
  { interp := .ok [.progress (.determinate (.fraction .nan)),
      .progress (.determinate (.fraction (.inf false)))] }

def strangeReports : List RuntimeLabel :=
  [.spawn reportingConfig true] ++
    onJob 0 (drive 12 ++ [.arrive .stdout [0x78, newline]] ++ drive 5 ++ [.driver strangeReply] ++
      drive 8)

theorem strangeReports_runs :
    (Transition.run Runtime.step storedRuntime strangeReports).isSome = true := by
  decide

def strangeEnd : Runtime := Transition.endOf _ _ strangeReports strangeReports_runs

theorem Oracle.wellTyped_default : Oracle.WellTyped {} := by
  refine ⟨⟨le_rfl, by decide⟩, fun pid hpid => ?_, fun evs hevs => ?_⟩
  · cases hpid
    decide
  · cases hevs
    exact List.forall_mem_nil _

theorem strangeReply_wellTyped : strangeReply.WellTyped := by
  have hquiet := Oracle.wellTyped_default
  refine ⟨hquiet.time, hquiet.spawned, fun evs hevs => ?_⟩
  cases hevs
  simp [InterpreterEvent.IsValue, Progress.IsValue, F32.IsValue]

theorem strangeReports_wellTyped : ∀ l ∈ strangeReports, l.WellTyped := by
  have hdrive (n : Nat) : ∀ l ∈ drive n, l.WellTyped := by
    intro l hl
    rw [List.eq_of_mem_replicate hl]
    exact Oracle.wellTyped_default
  have hcfg : reportingConfig.WellTyped := by
    refine ⟨by decide, fun d hd => ?_, ⟨le_rfl, by decide⟩, fun n => ?_⟩
    · cases hd
    · exact Nat.mod_lt n (by decide)
  simp only [strangeReports, onJob, List.forall_mem_map, List.forall_mem_append,
    List.forall_mem_singleton]
  exact ⟨hcfg, ⟨⟨⟨hdrive 12, trivial⟩, hdrive 5⟩, strangeReply_wellTyped⟩, hdrive 8⟩

theorem told_values_come_back_strange :
    strangeEnd.jobs.map (fun e => e.sys.snapshot.progress.asFraction) = [some (.finite 1)] ∧
    (∀ e ∈ strangeEnd.jobs, ∀ event ∈ e.sys.log,
      ComesBack (Event.serialize .hyphenated) (Event.deserialize .hyphenated) event) ∧
    ∀ e ∈ strangeEnd.jobs, e.sys.snapshot.progress.InUnit := by
  obtain ⟨htold, -, hunit⟩ := told_values_come_back .hyphenated storedRuntime_built
    (fun store hstore => Option.some.inj hstore ▸ Store.legible_empty) strangeReports_wellTyped
    (Transition.run_endOf storedRuntime strangeReports strangeReports_runs)
  exact ⟨by decide, htold, fun e he => (hunit e he).1⟩

end Execra
