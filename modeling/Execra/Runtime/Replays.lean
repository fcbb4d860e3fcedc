import Execra.Model.Inspect
import Execra.Runtime.Histories

/-!
What can be read of a job when `execra run` is over. The history has all events of the job
but its output, whichever branch of its loop the command took last; so `tail` prints what
`run` has printed, and it prints the events that `run` may have left unread. `ls` recovers
the history before it reads it, so what it lists is never open, unless another process has
written it in between.
-/

namespace Execra

/-! `tail`. -/

/-- Every insert is `Ok`. -/
def Cli.InsertsSucceed (s : Cli) : CliLabel → Prop
  | .runtime l => s.app.rt.InsertsSucceed l
  | _ => True

instance (s : Cli) : (l : CliLabel) → Decidable (s.InsertsSucceed l)
  | .runtime l => inferInstanceAs (Decidable (s.app.rt.InsertsSucceed l))
  | .event | .handle _ => inferInstanceAs (Decidable True)

/-- The events that both commands print as they are: all but output, `Cancelled` and
`Finalized`. -/
def EventBody.isInner (body : EventBody) : Bool :=
  !body.isOutput && !body.isCancelled && !body.isFinalized

section Tail

variable {s t : Cli} {l : CliLabel}

theorem App.stepRuntime_rt {app app' : App} {l : RuntimeLabel}
    (h : app.stepRuntime l = some app') : app.rt.step l = some app'.rt := by
  obtain ⟨rt, hrt, rfl⟩ := Option.map_eq_some_iff.mp h
  exact hrt

/-- What `tail` relies on. -/
def Cli.Recorded (s : Cli) : Prop := s.app.rt.Recorded ∧ s.app.rt.store.isSome = true

theorem Runtime.Recorded.next {rt rt' : Runtime} {l : RuntimeLabel} (h : rt.Recorded)
    (hsome : rt.store.isSome = true) (hok : rt.InsertsSucceed l)
    (hstep : rt.step l = some rt') : rt'.Recorded ∧ rt'.store.isSome = true :=
  ⟨h.step hok hstep, (Runtime.step_move hstep).store_isSome.trans hsome⟩

theorem Cli.Recorded.step (h : s.Recorded) (hok : s.InsertsSucceed l) (hmove : s.Move l t) :
    t.Recorded := by
  cases hmove with
  | runtime l app hstep => exact h.1.next h.2 hok (App.stepRuntime_rt hstep)
  | again | ready => exact h
  | handle now app outcome e hstep =>
      refine h.1.next h.2 ?_ (App.stepRuntime_rt hstep)
      exact fun e he => trivial

theorem Cli.recorded_start {config : RuntimeConfig} {maxConcurrent : ℕ} {found : Store}
    {cfg : Config} {upsertOk json : Bool} {first : Cli}
    (hstart : Cli.start config maxConcurrent (some found) cfg upsertOk json = some first)
    (hrooted : found.Rooted) : first.Recorded ∧ first.job = cfg.id ∧ first.json = json := by
  unfold Cli.start at hstart
  cases hbuild : Runtime.build config maxConcurrent (some found) with
  | error err =>
      rw [hbuild] at hstart
      cases hstart
  | ok rt =>
      simp only [hbuild] at hstart
      split at hstart
      · cases hstart
      · obtain ⟨app, hspawn, rfl⟩ := Option.map_eq_some_iff.mp hstart
        have hrecorded : rt.Recorded := by
          refine Runtime.recorded_of_build hbuild ?_
          rintro _ ⟨⟩
          exact hrooted
        have hsome : rt.store.isSome = true := by
          rw [(Runtime.build_ok hbuild).1]
          rfl
        have hok : rt.InsertsSucceed (.spawn cfg upsertOk) := trivial
        exact ⟨hrecorded.next hsome hok (App.stepRuntime_rt hspawn), rfl, rfl⟩

theorem Cli.Move.same (h : s.Move l t) : t.job = s.job ∧ t.json = s.json := by
  cases h <;> exact ⟨rfl, rfl⟩

/-- What the branch of the handle leaves: the events of the job that were read, those that
were not, and what is put out for the outcome. -/
theorem Cli.Reads.handled {history : List Event} (h : s.Reads history) (hkeeps : s.KeepsUp)
    {now : SystemTime} (hmove : s.Move (.handle now) t) :
    ∃ outcome, ∃ e ∈ t.app.rt.jobs, e.cfg.id = s.job ∧ e.sys.handleYields = some outcome ∧
      t.printed = s.printed ++ s.printEnd outcome now ∧
      e.sys.log = eventsOf s.job (history.take s.events.rx) ++ s.unread := by
  cases hmove with
  | handle now app outcome e hstep he hyields =>
      have hsent : s.app.rt.sends (.job s.index .pollHandle) = none := by
        simp only [Runtime.sends]
        cases s.app.rt.jobs[s.index]? <;> rfl
      have hafter := h.runtime hstep
      rw [hsent, Option.toList_none, List.append_nil] at hafter
      obtain ⟨found, hfound, hid⟩ := hafter.entry
      cases he.symm.trans hfound
      refine ⟨outcome, e, List.mem_of_getElem? he, hid, hyields, rfl, ?_⟩
      rw [h.unread_eq hkeeps, ← eventsOf_append, List.take_append_drop]
      rw [← hafter.broadcasts.told.log s.index e he, hid]
      rfl

/-- One `Finalized` was sent when the handle has resolved, with the same outcome. -/
theorem Sys.Reachable.finalized_of_yields {cfg : Config} {s : Sys} (hs : Sys.Reachable cfg s)
    {outcome : Outcome} (hyields : s.handleYields = some outcome) :
    (s.log.filter (fun e => e.body.isFinalized)).map Event.body = [.finalized outcome] := by
  obtain ⟨before, event, hlog, hfinal, hnone⟩ := hs.log_ends (by rw [hyields]; rfl)
  have hbefore : before.filter (fun e => e.body.isFinalized) = [] := by
    rw [List.filter_eq_nil_iff]
    exact List.any_eq_false.mp hnone
  obtain ⟨result, hresult⟩ := EventBody.eq_finalized hfinal
  have hmem : event ∈ s.log := by rw [hlog]; simp
  have hsame := (hs.outcome_of_finalized hmem hresult).symm.trans (hs.outcome_of_yields hyields)
  have hlast : [event].filter (fun e => e.body.isFinalized) = [event] := by simp [hfinal]
  rw [hlog, List.filter_append, hbefore, hlast, List.nil_append, List.map_singleton, hresult,
    Option.some.inj hsame]

/-- What `run --json` puts out for a list of events. -/
theorem printed_objects (events : List Event) :
    events.flatMap (fun event => printEvent event true) = events.map .object := by
  induction events with
  | nil => rfl
  | cons event events ih =>
      rw [List.flatMap_cons, ih]
      rfl

/-- What two readings of the events of one job have in common: `ran` by `run --json`, `told`
by `tail --json`. -/
structure Replays (ran told : List Event) (outcome : Outcome) : Prop where
  inner : ran.filter (fun e => e.body.isInner) <+: told.filter (fun e => e.body.isInner)
  cancelled : ran.filter (fun e => e.body.isCancelled) <+:
    told.filter (fun e => e.body.isCancelled)
  ran : (ran.filter (fun e => e.body.isFinalized)).map Event.body = [.finalized outcome]
  told : (told.filter (fun e => e.body.isFinalized)).map Event.body = [.finalized outcome]

/-- `run` prints the events it has read, and a substitute for `Finalized` if that is not
among them. -/
theorem replays_of_handled {cfg : Config} {s : Sys} (hs : Sys.Reachable cfg s)
    {read unread told : List Event} {outcome : Outcome} (hlog : s.log = read ++ unread)
    (hyields : s.handleYields = some outcome) (htold : FiledAll told (persisted s.log))
    {final : Event} (hbody : final.body = .finalized outcome) :
    Replays (read ++ if read.any (fun e => e.body.isFinalized) then [] else [final])
      told outcome := by
  have hfinal := hs.finalized_of_yields hyields
  have hread : read <+: s.log := by
    rw [hlog]
    exact List.prefix_append _ _
  have hend : ∀ p : Event → Bool, p final = false →
      (if read.any (fun e => e.body.isFinalized) then [] else [final]).filter p = [] := by
    intro p hp
    split
    · rfl
    · simp [hp]
  constructor
  · have hinner : final.body.isInner = false := by rw [hbody]; rfl
    rw [List.filter_append, hend _ hinner, List.append_nil, htold.filter (fun e he => ?_)]
    · exact hread.filter _
    · simp only [EventBody.isInner, Bool.and_eq_true, Bool.not_eq_true'] at he
      exact ⟨he.1.2, he.1.1⟩
  · have hkept : final.body.isCancelled = false := by rw [hbody]; rfl
    rw [List.filter_append, hend _ hkept, List.append_nil, htold.cancelled, cancelled_persisted]
    exact hread.filter _
  · obtain ⟨event, hevent, hsame⟩ := List.map_eq_singleton_iff.mp hfinal
    rw [hlog, List.filter_append] at hevent
    rw [List.filter_append]
    cases hseen : read.any (fun e => e.body.isFinalized) with
    | false =>
        have hnone : read.filter (fun e => e.body.isFinalized) = [] := by
          rw [List.filter_eq_nil_iff]
          exact List.any_eq_false.mp hseen
        have hsubstitute : [final].filter (fun e => e.body.isFinalized) = [final] := by
          simp [hbody, EventBody.isFinalized]
        simp [hnone, hsubstitute, hbody]
    | true =>
        rcases List.append_eq_singleton_iff.mp hevent with ⟨hnone, -⟩ | ⟨hone, -⟩
        · rw [List.filter_eq_nil_iff] at hnone
          rw [List.any_eq_false.mpr hnone] at hseen
          cases hseen
        · simp [hone, hsame]
  · rw [htold.filter (fun e he => ?_)]
    · exact hfinal
    · cases hcase : e.body <;> rw [hcase] at he <;> first | exact ⟨rfl, rfl⟩ | cases he

end Tail

/-- When `execra run --json` has returned, in a run on a rooted history whose inserts are `Ok`
and whose receiver keeps up, `execra tail --json` with a limit that is not below what the job
has on file prints each event that it has printed again, but for output: those of the driver
in the same order, and `Finalized` with the same outcome, which is the one that the handle has
resolved with. -/
theorem tail_repeats_run {config : RuntimeConfig} {maxConcurrent : ℕ} {found : Store}
    {cfg : Config} {upsertOk : Bool} {first t : Cli} {ls : List CliLabel}
    (hstart : Cli.start config maxConcurrent (some found) cfg upsertOk true = some first)
    (hrooted : found.Rooted) (hrun : Transition.run Cli.step first ls = some t)
    (hreturned : t.returned = true)
    (hkeeps : Transition.StepsMeet Cli.step (fun s _ => s.KeepsUp) first ls)
    (hok : Transition.StepsMeet Cli.step Cli.InsertsSucceed first ls) :
    ∃ ran told outcome store, t.printed = ran.map .object ∧ t.app.rt.store = some store ∧
      (∀ limit, limit < 2 ^ 64 → told.length ≤ limit →
        tail store cfg.id limit = .ok (told.map .object)) ∧
      Replays ran told outcome ∧
      ∃ e ∈ t.app.rt.jobs, e.cfg.id = cfg.id ∧ e.sys.handleYields = some outcome := by
  obtain ⟨hfirst, hopen⟩ := Cli.Reads.start hstart
  obtain ⟨hrecorded, hjob, hjson⟩ := Cli.recorded_start hstart hrooted
  have hinvariant : ∀ {done : List CliLabel} {s : Cli},
      Transition.StepsMeet Cli.step Cli.InsertsSucceed first done →
      Transition.run Cli.step first done = some s →
      s.Recorded ∧ s.job = cfg.id ∧ s.json = true := by
    intro done s hmeet hdone
    refine Transition.invariant_of_run (P := Cli.InsertsSucceed)
      (I := fun s => s.Recorded ∧ s.job = cfg.id ∧ s.json = true) ?_
      ⟨hrecorded, hjob, hjson⟩ hmeet hdone
    rintro s l t ⟨h, hid, htrue⟩ hok hstep
    have hmove := (Cli.step_move hstep).2
    exact ⟨h.step hok hmove, hmove.same.1.trans hid, hmove.same.2.trans htrue⟩
  rcases List.eq_nil_or_concat ls with rfl | ⟨done, l, hlast⟩
  · cases hrun
    rw [hopen] at hreturned
    cases hreturned
  rw [List.concat_eq_append] at hlast
  subst hlast
  obtain ⟨s, hdone, hstep⟩ := (Transition.run_snoc_iff first t done l).mp hrun
  obtain ⟨hmeets, hup⟩ := (Transition.stepsMeet_snoc_iff hdone).mp hkeeps
  obtain ⟨hrunning, hmove⟩ := Cli.step_move hstep
  obtain ⟨⟨later, hreads⟩, -⟩ := Cli.reads_of_run hfirst hmeets hdone hrunning
  obtain ⟨-, hid, htrue⟩ := hinvariant ((Transition.stepsMeet_snoc_iff hdone).mp hok).1 hdone
  obtain ⟨⟨hrecords, hsome⟩, -, -⟩ := hinvariant hok hrun
  cases l with
  | runtime | event => cases hmove <;> rw [hrunning] at hreturned <;> cases hreturned
  | handle now =>
      obtain ⟨outcome, e, he, hown, hyields, hprinted, hlog⟩ := hreads.handled hup hmove
      obtain ⟨store, hstore⟩ := Option.isSome_iff_exists.mp hsome
      obtain ⟨-, before, -, hreach⟩ := hrecords.shares e he
      have hanswer := hreach.value_of_yields outcome hyields
      have hanswered : e.sys.outcomeRx.value.isSome := by
        rw [show e.sys.outcomeRx.value = some outcome from hanswer]
        rfl
      obtain ⟨told, hlist, -, hall⟩ := filed_of_recorded hrecords hstore he
      have hseen := hreads.seen
      have hput := hreads.printed
      generalize eventsOf s.job (later.take s.events.rx) = read at hlog hseen hput
      let final : Event := { job := s.job, body := .finalized outcome, time := now }
      refine ⟨read ++ if read.any (fun e => e.body.isFinalized) then [] else [final], told,
        outcome, store, ?_, hstore, fun limit hword hlimit => ?_,
        replays_of_handled hreach hlog hyields (hall (Or.inr hanswered)) rfl,
        e, he, hown.trans hid, hyields⟩
      · rw [hprinted, hput, htrue, printed_objects, Cli.printEnd, if_pos htrue, hseen,
          List.map_append]
        split <;> rfl
      · have hlisted := hlist limit hword hlimit
        rw [hown, hid] at hlisted
        rw [tail, hlisted]
        rfl

/-- `run --json` on a history, whose loop asks the handle before it reads any event. -/
theorem storedPrinting_starts :
    (Cli.start {} 1 (some {}) plainConfig true true).isSome = true := by
  decide

def storedPrinting : Cli := (Cli.start {} 1 (some {}) plainConfig true true).get
  storedPrinting_starts

theorem storedHasty_runs :
    (Transition.run Cli.step storedPrinting hastyRun).isSome = true := by
  decide +kernel

/-- All that is printed then is the substitute for `Finalized`. -/
theorem tail_repeats_run_hasty : ∃ ran told outcome,
    (Transition.endOf Cli.step storedPrinting hastyRun storedHasty_runs).printed =
      ran.map .object ∧ ran.length = 1 ∧ Replays ran told outcome := by
  have hrooted : ({} : Store).Rooted := storedRuntime_rooted _ rfl
  obtain ⟨ran, told, outcome, store, hran, -, -, hreplays, -⟩ := tail_repeats_run
    (Option.some_get storedPrinting_starts).symm hrooted
    (Transition.run_endOf storedPrinting hastyRun storedHasty_runs) (by decide +kernel)
    (by decide +kernel) (by decide +kernel)
  have hone : (Transition.endOf Cli.step storedPrinting hastyRun
      storedHasty_runs).printed.length = 1 := by
    decide +kernel
  rw [hran, List.length_map] at hone
  exact ⟨ran, told, outcome, hran, hone, hreplays⟩

/-! `ls`. -/

section Ls

variable {config : RuntimeConfig} {maxConcurrent : ℕ} {found : Store}
  {meanwhile : List Statement} {args : LsArgs} {rt : Runtime} {listed : List Job}

/-- What `ls` prints is what a query returns on the history it has recovered, as the others
have left it. -/
theorem ls_ok (h : ls config maxConcurrent found meanwhile args = .ok (rt, listed)) :
    Runtime.build config maxConcurrent (some found) = .ok rt ∧
    ∃ state, args.parseState = .ok state ∧
      (meanwhile.foldl Store.exec found.resurrectStrandedJobs.1).listJobs args.limit
        { tag := args.tag, state } = .ok listed := by
  unfold ls at h
  split at h
  · cases h
  · next built hbuild =>
      split at h
      · cases h
      · next state hparse =>
          simp only at h
          split at h
          · cases h
          · next jobs hquery =>
              cases h
              rw [(Runtime.build_ok hbuild).1] at hquery
              exact ⟨hbuild, state, hparse, hquery⟩

theorem upsertRow_other {row new : JobRow} {rows : List JobRow} (h : row ∈ upsertRow new rows)
    (hid : row.id ≠ new.id) : row ∈ rows := by
  induction rows with
  | nil => exact absurd (congrArg JobRow.id (List.mem_singleton.mp h)) hid
  | cons old rest ih =>
      unfold upsertRow at h
      split at h
      · next hsame =>
          rcases List.mem_cons.mp h with rfl | h
          · exact absurd hsame hid
          · exact List.mem_cons_of_mem _ h
      · rcases List.mem_cons.mp h with rfl | h
        · exact List.mem_cons_self
        · exact List.mem_cons_of_mem _ (ih h)

/-- A row of a job that nobody writes is the one that was recovered. -/
theorem Store.recovered_of_exec {store : Store} {statement : Statement} {row : JobRow}
    (hwrites : statement.writes row.id = false)
    (h : ∀ old ∈ store.jobs, old.id = row.id → ∃ lost ∈ found.jobs, old = lost.resurrect)
    (hrow : row ∈ (store.exec statement).jobs) : ∃ lost ∈ found.jobs, row = lost.resurrect := by
  cases statement with
  | upsertJob job =>
      have hid : row.id ≠ (JobRow.ofJob job).id :=
        fun heq => of_decide_eq_false hwrites heq.symm
      exact h row (upsertRow_other hrow hid) rfl
  | insertEvent event eventOk findingOk =>
      rw [exec, insertEvent_jobs] at hrow
      exact h row hrow rfl
  | resurrectStrandedJobs =>
      obtain ⟨old, hold, rfl⟩ := List.mem_map.mp hrow
      have hsame : old.id = old.resurrect.id := by
        unfold JobRow.resurrect
        split <;> rfl
      obtain ⟨lost, hlost, rfl⟩ := h old hold hsame
      exact ⟨lost, hlost, lost.resurrect_resurrect⟩

theorem Store.recovered_of_meanwhile {row : JobRow}
    (hwrites : ∀ statement ∈ meanwhile, statement.writes row.id = false)
    (hrow : row ∈ (meanwhile.foldl Store.exec found.resurrectStrandedJobs.1).jobs) :
    ∃ lost ∈ found.jobs, row = lost.resurrect := by
  induction meanwhile using List.reverseRecOn generalizing row with
  | nil =>
      obtain ⟨lost, hlost, rfl⟩ := List.mem_map.mp hrow
      exact ⟨lost, hlost, rfl⟩
  | append_singleton earlier last ih =>
      rw [List.foldl_append] at hrow
      obtain ⟨hearlier, hlast⟩ := List.forall_mem_append.mp hwrites
      refine Store.recovered_of_exec (hlast last (List.mem_singleton_self last)) ?_ hrow
      exact fun old hold hid => ih (fun statement hmem => hid ▸ hearlier statement hmem) hold

/-- A row that was recovered decodes to a job that is over. -/
theorem JobRow.decode_recovered {row : JobRow} {j : Job} (h : row.resurrect.decode = .ok j) :
    (j.state = .finalized ∨ j.state = .cancelled) ∧
      (row.stranded = true → j.outcome = some hostExited) := by
  have hstate := (JobRow.decode_core h).2
  cases hstranded : row.stranded with
  | true =>
      rw [resurrect_stranded hstranded] at h hstate
      replace hstate : "finalized" = j.state.toText := hstate
      refine ⟨?_, fun _ => ?_⟩
      · left
        cases hj : j.state with
        | finalized => rfl
        | _ => rw [hj] at hstate; exact absurd hstate (by decide)
      · unfold decode buildJob at h
        cases hversion : checkSchemaVersion row.schemaVersion with
        | error err =>
            rw [hversion] at h
            cases h
        | ok _ =>
            rw [hversion] at h
            cases h
            rfl
  | false =>
      have hsame : row.resurrect = row := if_neg (by rw [hstranded]; exact Bool.false_ne_true)
      rw [hsame] at hstate
      refine ⟨?_, fun hother => absurd hother Bool.false_ne_true⟩
      unfold stranded at hstranded
      rw [hstate] at hstranded
      cases hj : j.state with
      | finalized => exact Or.inl rfl
      | cancelled => exact Or.inr rfl
      | _ => rw [hj] at hstranded; exact absurd hstranded (by decide)

/-- Nothing that `ls` prints is queued, running or exited, unless another process has written
its row since `ls` has recovered the history: it has finalized all such jobs before it reads
them, and with them those that another process still runs. -/
theorem ls_lists_closed (h : ls config maxConcurrent found meanwhile args = .ok (rt, listed)) :
    ∀ j ∈ listed, (∀ statement ∈ meanwhile, statement.writes j.id = false) →
      (j.state = .finalized ∨ j.state = .cancelled) ∧
      ∃ row ∈ found.jobs, row.resurrect.decode = .ok j ∧
        (row.stranded = true → j.outcome = some hostExited) := by
  obtain ⟨-, state, -, hlist⟩ := ls_ok h
  intro j hj hwrites
  rw [Store.listJobs] at hlist
  split at hlist
  · cases hlist
  · obtain ⟨row, hrow, hdecode⟩ := (mem_of_mapM hlist j).mp hj
    have hmem := List.mem_of_mem_filter ((List.mem_insertionSort _).mp (mem_of_limited hrow))
    rw [(JobRow.decode_core hdecode).1] at hwrites
    obtain ⟨lost, hlost, rfl⟩ := Store.recovered_of_meanwhile hwrites hmem
    obtain ⟨hclosed, hexited⟩ := JobRow.decode_recovered hdecode
    exact ⟨hclosed, lost, hlost, hdecode, hexited⟩

end Ls

/-- A job that waits in another process is printed as finalized by its host, and one that a
third process accepts in the meantime as queued. -/
theorem ls_lists_closed_queued : ∃ rt j k,
    ls {} 1 (({} : Store).upsertJob plainConfig.initialJob)
      [.upsertJob { plainConfig.initialJob with id := ⟨1⟩ }] {} = .ok (rt, [j, k]) ∧
    j.id = plainConfig.id ∧ (j.state = .finalized ∨ j.state = .cancelled) ∧
    k.id = ⟨1⟩ ∧ k.state = .queued := by
  obtain ⟨rt, j, k, hlisted, hid, hother, hstate⟩ : ∃ rt j k,
      ls {} 1 (({} : Store).upsertJob plainConfig.initialJob)
        [.upsertJob { plainConfig.initialJob with id := ⟨1⟩ }] {} = .ok (rt, [j, k]) ∧
      j.id = plainConfig.id ∧ k.id = ⟨1⟩ ∧ k.state = .queued := ⟨_, _, _, rfl, rfl, rfl, rfl⟩
  refine ⟨rt, j, k, hlisted, hid, ?_, hother, hstate⟩
  refine ((ls_lists_closed hlisted) j List.mem_cons_self fun statement hstatement => ?_).1
  rw [List.mem_singleton.mp hstatement, hid]
  decide

end Execra
