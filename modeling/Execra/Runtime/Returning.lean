import Execra.Runtime.Liveness
import Execra.Runtime.Pool
import Execra.Runtime.Replays

/-!
`execra run` returns. The loop takes whatever branch of its `select!` is ready, and a job
that goes on sending could keep it at its events; it is enough that neither the tasks of the
runtime nor the branch of the handle are passed over for ever.
-/

namespace Execra

open Transition

/-- A run of the command that never ends. When `run` has returned nothing happens. -/
abbrev CliBehavior := Behavior (stuttering Cli.step)

/-- What a step of the loop is for the runtime. -/
def CliLabel.forRuntime (index : ℕ) : CliLabel → Option RuntimeLabel
  | .runtime l => some l
  | .event => none
  | .handle _ => some (.job index .pollHandle)

/-- A class of steps of the runtime, in the command. -/
def CliLabel.within (A : RuntimeLabel → Prop) : CliLabel → Prop
  | .runtime l => A l
  | _ => False

/-- The branch of the handle. -/
def CliLabel.takesHandle : CliLabel → Prop
  | .handle _ => True
  | _ => False

section Turn

variable {s t : Cli} {l : Option CliLabel}

theorem Cli.Move.forRuntime {l : CliLabel} (h : s.Move l t) :
    stuttering Runtime.step s.app.rt (l.forRuntime s.index) = some t.app.rt := by
  cases h with
  | runtime l app hstep => exact App.stepRuntime_rt hstep
  | again | ready => rfl
  | handle now app outcome e hstep => exact App.stepRuntime_rt hstep

theorem Cli.Move.index {l : CliLabel} (h : s.Move l t) : t.index = s.index := by
  cases h <;> rfl

theorem Cli.turn_runtime (h : stuttering Cli.step s l = some t) :
    stuttering Runtime.step s.app.rt (l.bind (CliLabel.forRuntime s.index)) =
      some t.app.rt := by
  cases l with
  | none => exact congrArg (fun s : Cli => some s.app.rt) (Option.some.inj h)
  | some own => exact (Cli.step_move h).2.forRuntime

theorem Cli.turn_index (h : stuttering Cli.step s l = some t) : t.index = s.index := by
  cases l with
  | none => rw [← Option.some.inj h]
  | some own => exact (Cli.step_move h).2.index

/-- A command that has returned does nothing more. -/
theorem Cli.turn_returned (h : stuttering Cli.step s l = some t) (hreturned : s.returned = true) :
    t = s := by
  cases l with
  | none => exact (Option.some.inj h).symm
  | some own =>
      have hopen := (Cli.step_move h).1
      rw [hreturned] at hopen
      cases hopen

theorem CliLabel.taken_within {A : RuntimeLabel → Prop} {index : ℕ}
    (h : taking (CliLabel.within A) l) : taking A (l.bind (CliLabel.forRuntime index)) := by
  obtain ⟨own, rfl, hown⟩ := eq_of_taking h
  cases own with
  | runtime l => exact hown
  | event | handle => cases hown

/-- What the runtime can do by itself it can do in the command. -/
theorem Cli.enabled_within {A : RuntimeLabel → Prop} (hA : ∀ l, A l → l.pollsHandle = false)
    (hopen : s.returned = false) (h : Enabled (stuttering Runtime.step) (taking A) s.app.rt) :
    Enabled (stuttering Cli.step) (taking (CliLabel.within A)) s := by
  obtain ⟨l, hl, hstep⟩ := enabled_stuttering.mp h
  obtain ⟨rt, hrt⟩ := Option.isSome_iff_exists.mp hstep
  refine enabled_stuttering.mpr ⟨.runtime l, hl, ?_⟩
  simp [Cli.step, hopen, hA l hl, App.stepRuntime, hrt]

end Turn

theorem RuntimeLabel.not_polls_of_driver {i : ℕ} {l : RuntimeLabel} (h : l.ofDriver i) :
    l.pollsHandle = false := by
  obtain ⟨w, hown⟩ := eq_driver_of_turn h
  cases l with
  | job j own =>
      obtain ⟨-, hsame⟩ := Option.ite_none_right_eq_some.mp hown
      cases hsame
      rfl
  | _ => rfl

theorem RuntimeLabel.not_polls_of_wait {i : ℕ} {l : RuntimeLabel} (h : l.ofWait i) :
    l.pollsHandle = false := by
  obtain ⟨c, w, hown⟩ := eq_wait_of_turn h
  cases l with
  | job j own =>
      obtain ⟨-, hsame⟩ := Option.ite_none_right_eq_some.mp hown
      cases hsame
      rfl
  | _ => rfl

/-- What a runtime does in a run of the command. -/
def CliBehavior.runtime (b : CliBehavior) : RuntimeBehavior where
  state n := (b.state n).app.rt
  label n := (b.label n).bind (CliLabel.forRuntime (b.state n).index)
  next n := Cli.turn_runtime (b.next n)

/-- As long as `run` has not returned, neither a driver that gets its permits nor a wait
task, a permit to be given back or the branch of the handle is passed over for ever, and
every child exits some day and both its pipes end. A process that outlives the child can
keep them open, and then `run` may wait for ever. -/
structure Cli.Fair (b : CliBehavior) : Prop where
  drivers : ∀ i, b.Compassionate (taking (CliLabel.within (RuntimeLabel.ofDriver i)))
  waits : ∀ i, b.Just (taking (CliLabel.within (RuntimeLabel.ofWait i)))
  releases : ∀ i, b.Just (taking (CliLabel.within (· = .release i)))
  handle : b.Just (taking CliLabel.takesHandle)
  children : ∀ (i n : ℕ) (e : Entry), (b.state n).app.rt.jobs[i]? = some e →
    e.sys.child.isSome → Eventually (fun m => (b.state m).returned = true ∨
      ∃ e' : Entry, (b.state m).app.rt.jobs[i]? = some e' ∧ e'.sys.Quit) n

section Fair

variable {b : CliBehavior}

theorem Cli.Fair.just_within {A : RuntimeLabel → Prop} (hA : ∀ l, A l → l.pollsHandle = false)
    (h : b.Just (taking (CliLabel.within A))) (hopen : ∀ m, (b.state m).returned = false) :
    b.runtime.Just (taking A) := by
  intro n
  refine (h n).mono (fun m _ hm => hm.imp CliLabel.taken_within (fun hstuck hen => ?_))
  exact hstuck (Cli.enabled_within hA (hopen m) hen)

/-- A run of the command that does not return is a fair run of its runtime. -/
theorem Cli.Fair.runtime (h : Cli.Fair b) (hopen : ∀ m, (b.state m).returned = false) :
    Runtime.Fair b.runtime := by
  refine ⟨fun i n hagain => ?_, fun i => ?_, fun i => ?_, fun i n e he hchild => ?_⟩
  · have htaken := h.drivers i n (fun m hm => (hagain m hm).mono (fun k _ hen =>
      Cli.enabled_within (fun _ => RuntimeLabel.not_polls_of_driver) (hopen k) hen))
    exact htaken.mono (fun m _ hm => CliLabel.taken_within hm)
  · exact just_within (fun _ => RuntimeLabel.not_polls_of_wait) (h.waits i) hopen
  · exact just_within (fun l hl => by rw [hl]; rfl) (h.releases i) hopen
  · refine (h.children i n e he hchild).mono (fun m _ hm => ?_)
    rcases hm with hreturned | hquit
    · rw [hopen m] at hreturned
      cases hreturned
    · exact hquit

/-- A fair run after the first job was spawned is fair with that. -/
theorem Runtime.Fair.cons {b : RuntimeBehavior} (h : Runtime.Fair b) {rt : Runtime}
    {l : Option RuntimeLabel} (hstep : stuttering Runtime.step rt l = some (b.state 0))
    (hempty : rt.jobs = []) : Runtime.Fair (b.cons hstep) := by
  refine ⟨fun i => (h.drivers i).cons hstep, fun i => (h.waits i).cons hstep,
    fun i => (h.releases i).cons hstep, fun i n e he hchild => ?_⟩
  cases n with
  | zero =>
      change rt.jobs[i]? = some e at he
      rw [hempty] at he
      cases he
  | succ n =>
      obtain ⟨m, hm, hquit⟩ := h.children i n e he hchild
      exact ⟨m + 1, by omega, hquit⟩

/-- Where the loop starts. -/
theorem Cli.start_built {config : RuntimeConfig} {maxConcurrent : ℕ} {history : Option Store}
    {cfg : Config} {upsertOk json : Bool} {first : Cli}
    (hstart : Cli.start config maxConcurrent history cfg upsertOk json = some first) :
    ∃ rt, Runtime.build config maxConcurrent history = .ok rt ∧
      rt.step (.spawn cfg upsertOk) = some first.app.rt ∧ first.job = cfg.id := by
  unfold Cli.start at hstart
  cases hbuild : Runtime.build config maxConcurrent history with
  | error err =>
      rw [hbuild] at hstart
      cases hstart
  | ok rt =>
      simp only [hbuild] at hstart
      split at hstart
      · cases hstart
      · obtain ⟨app, hspawn, rfl⟩ := Option.map_eq_some_iff.mp hstart
        exact ⟨rt, rfl, App.stepRuntime_rt hspawn, rfl⟩

theorem Cli.returned_of_handle {s t : Cli} {now : SystemTime}
    (h : s.step (.handle now) = some t) : t.returned = true := by
  cases (Cli.step_move h).2
  rfl

theorem Sys.pollHandle_withStore (s : Sys) (store : Option Store) :
    (s.withStore store).pollHandle.handleYields = s.pollHandle.handleYields := by
  simp only [pollHandle, withStore_handleYields, withStore_outcomeRx, withStore_ctl]
  split <;> rfl

/-- The branch of the handle can be taken when the job has settled. -/
theorem Cli.enabled_handle {s : Cli} {e : Entry} {outcome : Outcome}
    (hopen : s.returned = false) (he : s.app.rt.jobs[s.index]? = some e) (hruns : e.Runs)
    (hsettled : e.sys.Settled outcome) :
    Enabled (stuttering Cli.step) (taking CliLabel.takesHandle) s := by
  obtain ⟨store, -, hreach⟩ := hruns
  have hyields : e.sys.pollHandle.handleYields = some outcome := by
    rw [← e.sys.pollHandle_withStore store]
    exact (Sys.settled_withStore.mpr hsettled).pollHandle hreach
  have hpolled : (e.sys.withStore s.app.rt.store).pollHandle.handleYields = some outcome :=
    (e.sys.pollHandle_withStore _).trans hyields
  obtain ⟨hlen, hget⟩ := List.getElem?_eq_some_iff.mp he
  refine enabled_stuttering.mpr ⟨.handle 0, trivial, ?_⟩
  simp [Cli.step, hopen, Cli.pollHandle, App.stepRuntime, Runtime.step, Label.isDriver,
    Runtime.stepEntry, Sys.step, hlen, hget, hpolled]

variable {config : RuntimeConfig} {maxConcurrent : ℕ} {history : Option Store}
  {cfg : Config} {upsertOk json : Bool}

theorem Cli.index_at (n : ℕ) : (b.state n).index = (b.state 0).index := by
  induction n with
  | zero => rfl
  | succ n ih => exact (Cli.turn_index (b.next n)).trans ih

section Start

variable (hstart : Cli.start config maxConcurrent history cfg upsertOk json = some (b.state 0))

include hstart

/-- The run of the runtime begins with the spawn of the job. -/
theorem CliBehavior.launch : ∃ store persisted, stuttering Runtime.step
    (Runtime.fromParts config maxConcurrent store persisted) (some (.spawn cfg upsertOk)) =
      some (b.runtime.state 0) := by
  obtain ⟨rt, hbuild, hspawn, -⟩ := Cli.start_built hstart
  obtain ⟨store, persisted, rfl⟩ := Runtime.fromParts_of_build hbuild
  exact ⟨store, persisted, hspawn⟩

/-- The job of the command, at every moment. -/
theorem CliBehavior.job_at (n : ℕ) : ∃ e : Entry,
    (b.state n).app.rt.jobs[(b.state n).index]? = some e ∧ e.cfg.id = cfg.id ∧ e.Runs := by
  obtain ⟨store, persisted, hlaunch⟩ := CliBehavior.launch hstart
  obtain ⟨first, hfirst, hid⟩ := (Cli.Reads.start hstart).1.entry
  obtain ⟨own, hshadow⟩ := exists_shadow (b := b.runtime.cons hlaunch) (n := 1) rfl hfirst
  obtain ⟨e, -, he, hcfg, -⟩ := hshadow.follows n
  rw [Nat.add_comm] at he
  have hruns := (placed_at (b := b.runtime.cons hlaunch) rfl (n + 1) e
    (List.mem_of_getElem? he)).1
  replace he : (b.state n).app.rt.jobs[(b.state 0).index]? = some e := he
  rw [Cli.index_at n]
  refine ⟨e, he, ?_, hruns⟩
  rw [hcfg, hid]
  obtain ⟨rt, -, -, hjob⟩ := Cli.start_built hstart
  exact hjob

/-- The loop is left some day: the job settles, and from then on the handle is ready. -/
theorem CliBehavior.returns_of_fair (hfair : Cli.Fair b) :
    ∃ n, (b.state n).returned = true := by
  by_contra hnever
  have hopen : ∀ m, (b.state m).returned = false := by
    intro m
    rw [Bool.eq_false_iff]
    exact fun hreturned => hnever ⟨m, hreturned⟩
  obtain ⟨store, persisted, hlaunch⟩ := CliBehavior.launch hstart
  obtain ⟨first, hfirst, -⟩ := CliBehavior.job_at hstart 0
  have hwhole : Runtime.Fair (b.runtime.cons hlaunch) := (hfair.runtime hopen).cons hlaunch rfl
  obtain ⟨outcome, k, hsettled⟩ :=
    settles_for_good (b := b.runtime.cons hlaunch) (n := 1) rfl hwhole hfirst
  have hready : ∀ m, k ≤ m →
      Enabled (stuttering Cli.step) (taking CliLabel.takesHandle) (b.state m) := by
    intro m hm
    obtain ⟨e, he, -, hover⟩ := hsettled (m + 1) (by omega)
    replace he : (b.state m).app.rt.jobs[(b.state 0).index]? = some e := he
    rw [← Cli.index_at m] at he
    obtain ⟨own, hown, -, hruns⟩ := CliBehavior.job_at hstart m
    cases he.symm.trans hown
    exact Cli.enabled_handle (hopen m) he hruns hover
  obtain ⟨m, hm, hnow⟩ := hfair.handle k
  have htaken := hnow.resolve_right (not_not_intro (hready m hm))
  obtain ⟨own, hown, htakes⟩ := eq_of_taking htaken
  cases own with
  | handle now =>
      have hnext : Cli.step (b.state m) (.handle now) = some (b.state (m + 1)) := by
        have hturn := b.next m
        rwa [hown] at hturn
      have hreturned := Cli.returned_of_handle hnext
      rw [hopen (m + 1)] at hreturned
      cases hreturned
  | runtime | event => cases htakes

end Start

/-- What the handle has resolved with when the loop is left. -/
def Cli.Answered (s : Cli) : Prop := s.returned = true →
  ∃ e outcome, s.app.rt.jobs[s.index]? = some e ∧ e.sys.handleYields = some outcome

theorem Cli.Answered.step {s t : Cli} {l : CliLabel} (h : s.step l = some t) : t.Answered := by
  obtain ⟨hopen, hmove⟩ := Cli.step_move h
  intro hreturned
  cases hmove with
  | handle now app outcome e hstep he hyields => exact ⟨e, outcome, he, hyields⟩
  | runtime | again | ready =>
      rw [hopen] at hreturned
      cases hreturned

end Fair

/-- In every run of `execra run` in which, until it has returned, no task and no permit that
is to be given back is passed over for ever and the child exits some day and its pipes end,
`run` returns, however many events there are to be read, and the handle has resolved with
the outcome of its job. -/
theorem run_returns {b : CliBehavior} {config : RuntimeConfig} {maxConcurrent : ℕ}
    {history : Option Store} {cfg : Config} {upsertOk json : Bool}
    (hstart : Cli.start config maxConcurrent history cfg upsertOk json = some (b.state 0))
    (hfair : Cli.Fair b) :
    ∃ outcome n, ∀ m, n ≤ m → (b.state m).returned = true ∧
      ∃ e ∈ (b.state m).app.rt.jobs, e.cfg.id = cfg.id ∧
        e.sys.handleYields = some outcome ∧ e.sys.job.outcome = some outcome := by
  obtain ⟨n, hreturned⟩ := CliBehavior.returns_of_fair hstart hfair
  have hanswered : (b.state n).Answered := by
    have hreach := (b.reachable n).of_stuttering
    refine hreach.invariant (fun hother => ?_) (fun s l t _ hstep => Cli.Answered.step hstep)
    rw [(Cli.Reads.start hstart).2] at hother
    cases hother
  obtain ⟨e, outcome, he, hyields⟩ := hanswered hreturned
  obtain ⟨own, hown, hid, store, -, hreach⟩ := CliBehavior.job_at hstart n
  cases he.symm.trans hown
  have hstays : ∀ m, n ≤ m → b.state m = b.state n := by
    intro m hm
    induction m, hm using Nat.le_induction with
    | base => rfl
    | succ m hm ih => exact (Cli.turn_returned (b.next m) (by rw [ih, hreturned])).trans ih
  refine ⟨outcome, n, fun m hm => ?_⟩
  rw [hstays m hm]
  exact ⟨hreturned, e, List.mem_of_getElem? he, hid, hyields, hreach.outcome_of_yields hyields⟩

/-- The loop that asks the handle before it reads any event, and rests when it is left. -/
theorem hastyRun_goes_on : ∃ b : CliBehavior, b.state 0 = printingStart ∧
    ∀ m, hastyRun.length ≤ m → (b.state m).returned = true := by
  have hend : (Transition.endOf Cli.step printingStart hastyRun hastyRun_runs).returned =
      true := by
    decide +kernel
  have hrest : stuttering Cli.step
      (Transition.endOf Cli.step printingStart hastyRun hastyRun_runs) none =
        some (Transition.endOf Cli.step printingStart hastyRun hastyRun_runs) := rfl
  obtain ⟨b, hstart, -, hstate⟩ := (Behavior.constant hrest).exists_prepended
    ((run_stuttering printingStart hastyRun).trans (Transition.run_endOf _ _ hastyRun_runs))
  refine ⟨b, hstart, fun m hm => ?_⟩
  rw [List.length_map] at hstate
  obtain ⟨n, rfl⟩ := Nat.exists_eq_add_of_le hm
  rw [(hstate n).1]
  exact hend

theorem run_returns_hasty : ∃ b : CliBehavior, b.state 0 = printingStart ∧
    ∃ outcome n, ∀ m, n ≤ m → (b.state m).returned = true ∧
      ∃ e ∈ (b.state m).app.rt.jobs, e.cfg.id = plainConfig.id ∧
        e.sys.handleYields = some outcome ∧ e.sys.job.outcome = some outcome := by
  obtain ⟨b, hfirst, hreturned⟩ := hastyRun_goes_on
  have hnever : ∀ A : CliLabel → Prop, b.Compassionate (taking A) := by
    intro A
    refine Behavior.compassionate_of_never (n := hastyRun.length) (fun m hm hen => ?_)
    obtain ⟨l, -, hstep⟩ := enabled_stuttering.mp hen
    obtain ⟨t, ht⟩ := Option.isSome_iff_exists.mp hstep
    have hopen := (Cli.step_move ht).1
    rw [hreturned m hm] at hopen
    cases hopen
  have hfair : Cli.Fair b := by
    refine ⟨fun i => hnever _, fun i => (hnever _).just, fun i => (hnever _).just,
      (hnever _).just, fun i n e _ _ => ?_⟩
    exact ⟨max n hastyRun.length, Nat.le_max_left _ _,
      Or.inl (hreturned _ (Nat.le_max_right _ _))⟩
  have hstart : Cli.start {} 1 none plainConfig true false = some (b.state 0) := by
    rw [hfirst]
    exact (Option.some_get printing_starts).symm
  exact ⟨b, hfirst, run_returns hstart hfair⟩

end Execra
