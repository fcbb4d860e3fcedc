import Execra.Job.Liveness
import Execra.Runtime.Permits

/-!
No job of a runtime is left behind. What a job does among the others is a run of the
job alone that rests while the others move, so a driver that has its permit brings its
job to the end. Then the permit is dropped; so permits become free again and again, and
a semaphore that does not pass over a waiting driver for ever serves every job.
-/

namespace Execra

open Transition

/-- The step that job `i` takes of its own. -/
def ownLabel (i : ℕ) : RuntimeLabel → Option Label
  | .job j l => if j = i then some l else none
  | _ => none

/-- A step of the driver of job `i`. -/
def RuntimeLabel.ofDriver (i : ℕ) (l : RuntimeLabel) : Prop := driverTurn (ownLabel i l)

/-- A step of the wait task of job `i`. -/
def RuntimeLabel.ofWait (i : ℕ) (l : RuntimeLabel) : Prop := waitTurn (ownLabel i l)

/-- A settled job stays settled, whoever moves. -/
theorem Sys.Settled.turn {cfg : Config} {s t : Sys} {l : Option Label} {outcome : Outcome}
    (h : s.Settled outcome) (hs : Sys.Reachable cfg s)
    (hstep : stuttering (Sys.step cfg) s l = some t) : t.Settled outcome := by
  cases l with
  | none => exact Option.some.inj hstep ▸ h
  | some own =>
      exact h.move hs (Transition.Reachable.extend hs hstep) (Sys.step_move hstep)
        (Sys.step_returned h.returned hstep)

theorem Sys.settled_withStore {s : Sys} {store : Option Store} {outcome : Outcome} :
    (s.withStore store).Settled outcome ↔ s.Settled outcome :=
  ⟨fun h => ⟨h.returned, h.state, h.snapshot, h.answer, h.sent⟩,
    fun h => ⟨h.returned, h.state, h.snapshot, h.answer, h.sent⟩⟩

/-- A queued driver has not returned. -/
theorem Sys.Queued.unreturned {cfg : Config} {s : Sys} (h : s.Queued cfg) : s.ctl ≠ .returned := by
  obtain ⟨k, hlaunch, -⟩ := launchJob_acquires cfg
  rcases h.ctl with hctl | hctl | hctl
  · rw [hctl]; exact Ctl.noConfusion
  · rw [hctl]; exact Ctl.noConfusion
  · rw [hctl, hlaunch]; exact Ctl.noConfusion

/-- A driver that has had its permit asks for no other. -/
theorem Entry.Placed.acquires {e : Entry} (h : e.Placed) (hserved : e.permit ≠ .waiting) :
    e.sys.ctl.acquires = false := by
  cases h with
  | waiting hpermit => exact absurd hpermit hserved
  | held _ hctl => exact hctl.acquires
  | released _ hctl => rw [hctl]; rfl

namespace Runtime

variable {rt rt' : Runtime} {l : RuntimeLabel} {i : ℕ} {e : Entry}

/-- What a step of a runtime is for one of its jobs: a step of its own or a rest, and the
same on any other store. -/
theorem Move.image (h : rt.Move l rt') (hshares : rt.Shares) (he : rt.jobs[i]? = some e)
    {store : Option Store} (hstore : store.isSome = e.cfg.store.isSome) :
    ∃ e' store', rt'.jobs[i]? = some e' ∧ e'.cfg = e.cfg ∧
      store'.isSome = e.cfg.store.isSome ∧
      stuttering (Sys.step e.cfg) (e.sys.withStore store) (ownLabel i l) =
        some (e'.sys.withStore store') := by
  have hlen : i < rt.jobs.length := (List.getElem?_eq_some_iff.mp he).1
  have hown := (hshares e (List.mem_of_getElem? he)).1
  have hstep : ∀ {own s} (permit : Permit),
      (e.sys.withStore rt.store).step e.cfg own = some s →
      ∃ e' store', (rt.jobs.set i { e with sys := s, permit })[i]? = some e' ∧
        e'.cfg = e.cfg ∧ store'.isSome = e.cfg.store.isSome ∧
        stuttering (Sys.step e.cfg) (e.sys.withStore store) (some own) =
          some (e'.sys.withStore store') := by
    intro own s permit hs
    have hsame : store.isSome = (e.sys.withStore rt.store).store.isSome := hstore.trans hown.symm
    obtain ⟨-, store', hstore', hafter⟩ := Sys.step_store hsame hs
    exact ⟨{ e with sys := s, permit }, store', by simp [hlen], rfl, hstore'.trans hown, hafter⟩
  have hrest : ∀ {j e'}, j ≠ i → ∃ e'' store', (rt.jobs.set j e')[i]? = some e'' ∧
      e''.cfg = e.cfg ∧ store'.isSome = e.cfg.store.isSome ∧
      stuttering (Sys.step e.cfg) (e.sys.withStore store) none =
        some (e''.sys.withStore store') := by
    intro j e' hj
    exact ⟨e, store, by simp [hj, he], rfl, hstore, rfl⟩
  cases h with
  | refuse | openHistory => exact ⟨e, store, he, rfl, hstore, rfl⟩
  | spawn cfg upsertOk hfresh =>
      exact ⟨e, store, (List.getElem?_append_left hlen).trans he, rfl, hstore, rfl⟩
  | acquire j found w s hfound hctl hfree hs =>
      by_cases hj : j = i
      · subst hj
        cases he.symm.trans hfound
        rw [ownLabel, if_pos rfl]
        exact hstep .held hs
      · rw [ownLabel, if_neg hj]
        exact hrest hj
  | job j found own s hfound hctl hs =>
      by_cases hj : j = i
      · subst hj
        cases he.symm.trans hfound
        rw [ownLabel, if_pos rfl]
        exact hstep e.permit hs
      · rw [ownLabel, if_neg hj]
        exact hrest hj
  | release j found hfound hctl hheld =>
      by_cases hj : j = i
      · subst hj
        cases he.symm.trans hfound
        exact ⟨{ e with permit := .released }, store, by simp [hlen], rfl, hstore, rfl⟩
      · exact hrest hj

/-- A permit that is held is given back by a release only. -/
theorem Move.held (h : rt.Move l rt') (he : rt.jobs[i]? = some e) (hheld : e.permit = .held)
    (hl : l ≠ .release i) : ∃ e', rt'.jobs[i]? = some e' ∧ e'.permit = .held := by
  have hlen : i < rt.jobs.length := (List.getElem?_eq_some_iff.mp he).1
  have hset : ∀ {j e'}, (j = i → e'.permit = .held) →
      ∃ e'', (rt.jobs.set j e')[i]? = some e'' ∧ e''.permit = .held := by
    intro j e' hsame
    by_cases hj : j = i
    · subst hj
      exact ⟨e', by simp [hlen], hsame rfl⟩
    · exact ⟨e, by simp [hj, he], hheld⟩
  cases h with
  | refuse | openHistory => exact ⟨e, he, hheld⟩
  | spawn cfg upsertOk hfresh => exact ⟨e, (List.getElem?_append_left hlen).trans he, hheld⟩
  | acquire j found w s hfound => exact hset (fun _ => rfl)
  | job j found own s hfound =>
      refine hset (fun hj => ?_)
      subst hj
      cases he.symm.trans hfound
      exact hheld
  | release j found hfound =>
      exact hset (fun hj => absurd (hj ▸ rfl) hl)

/-- A driver that has had its permit waits no more. -/
theorem Move.served (h : rt.Move l rt') (hshares : rt.Shares) (he : rt.jobs[i]? = some e)
    (hserved : e.permit ≠ .waiting) : ∃ e', rt'.jobs[i]? = some e' ∧ e'.permit ≠ .waiting := by
  obtain ⟨e', he', hsame | ⟨own, hown, -⟩⟩ := h.entry hshares he
  · exact ⟨e', he', hsame ▸ hserved⟩
  · refine ⟨e', he', ?_⟩
    cases hown with
    | acquire => exact Permit.noConfusion
    | step => exact hserved
    | release => exact Permit.noConfusion

/-- A permit that is released stays so. -/
theorem Move.released (h : rt.Move l rt') (hshares : rt.Shares) (he : rt.jobs[i]? = some e)
    (hplaced : e.Placed) (hreleased : e.permit = .released) :
    ∃ e', rt'.jobs[i]? = some e' ∧ e'.permit = .released := by
  obtain ⟨e', he', rfl | ⟨own, hown, -⟩⟩ := h.entry hshares he
  · exact ⟨_, he', hreleased⟩
  · refine ⟨e', he', ?_⟩
    cases hown with
    | acquire w store s hstore hctl =>
        rw [hplaced.acquires (by rw [hreleased]; exact Permit.noConfusion)] at hctl
        cases hctl
    | step => exact hreleased
    | release => rfl

/-- The driver of a job can move, if it need not wait for a permit. -/
theorem enabled_driver (he : rt.jobs[i]? = some e) (hproper : e.sys.ctl.Proper)
    (hctl : e.sys.ctl ≠ .returned) (hfree : e.sys.ctl.acquires = true → 0 < rt.permits) :
    Enabled step (RuntimeLabel.ofDriver i) rt := by
  obtain ⟨l, hl, hstep⟩ := Sys.enabled_driver e.cfg (s := e.sys.withStore rt.store) hproper hctl
  obtain ⟨w, rfl⟩ := eq_driver_of_turn hl
  refine ⟨.job i (.driver w), by simp [RuntimeLabel.ofDriver, ownLabel, taking, Label.ofDriver], ?_⟩
  have hstep' : ((e.sys.withStore rt.store).step e.cfg (.driver w)).isSome := hstep
  simp only [step, he]
  split
  · next hacquires =>
      have hpos := hfree (by simpa [Label.isDriver] using hacquires)
      rw [if_neg (by omega), stepEntry, Option.isSome_map]
      exact hstep'
  · rw [stepEntry, Option.isSome_map]
    exact hstep'

/-- A handle that has its answer may be polled for ever. -/
theorem poll_idles {outcome : Outcome} (he : rt.jobs[i]? = some e)
    (hstore : e.sys.store = rt.store) (hyields : e.sys.handleYields = some outcome) :
    step rt (.job i .pollHandle) = some rt := by
  have hsame : e.sys.withStore rt.store = e.sys := by rw [← hstore]; rfl
  have hstep : (e.sys.withStore rt.store).step e.cfg .pollHandle = some e.sys := by
    rw [hsame]
    simp [Sys.step, Sys.pollHandle, hyields]
  obtain ⟨hlen, hget⟩ := List.getElem?_eq_some_iff.mp he
  have hset : rt.jobs.set i e = rt.jobs := by rw [← hget, List.set_getElem_self]
  simp [step, he, Label.isDriver, stepEntry, hstep, hstore, hset]

/-- A step that job `i` takes of its own is one the job could take alone. -/
theorem Move.own (h : rt.Move l rt') {own : Label} (hown : ownLabel i l = some own) :
    ∃ e s, rt.jobs[i]? = some e ∧ (e.sys.withStore rt.store).step e.cfg own = some s := by
  cases h with
  | refuse | openHistory | spawn | release => cases hown
  | acquire j e w s he _ _ hs =>
      obtain ⟨rfl, hsame⟩ := Option.ite_none_right_eq_some.mp hown
      exact ⟨e, s, he, Option.some.inj hsame ▸ hs⟩
  | job j e l s he _ hs =>
      obtain ⟨rfl, hsame⟩ := Option.ite_none_right_eq_some.mp hown
      exact ⟨e, s, he, Option.some.inj hsame ▸ hs⟩

theorem idle_driver (h : ∀ e : Entry, rt.jobs[i]? = some e → e.sys.ctl = .returned) :
    ¬Enabled step (RuntimeLabel.ofDriver i) rt := by
  rintro ⟨l, hl, hstep⟩
  obtain ⟨rt', hrt'⟩ := Option.isSome_iff_exists.mp hstep
  obtain ⟨w, hown⟩ := eq_driver_of_turn hl
  obtain ⟨e, s, he, hs⟩ := (Runtime.step_move hrt').own hown
  refine Sys.idle_of_returned (s := e.sys.withStore rt.store) (h e he)
    ⟨.driver w, trivial, Option.isSome_iff_exists.mpr ⟨s, hs⟩⟩

theorem idle_wait (h : ∀ e : Entry, rt.jobs[i]? = some e → e.sys.wait.pc.delivered = true) :
    ¬Enabled step (RuntimeLabel.ofWait i) rt := by
  rintro ⟨l, hl, hstep⟩
  obtain ⟨rt', hrt'⟩ := Option.isSome_iff_exists.mp hstep
  obtain ⟨c, w, hown⟩ := eq_wait_of_turn hl
  obtain ⟨e, s, he, hs⟩ := (Runtime.step_move hrt').own hown
  refine Sys.idle_of_delivered (s := e.sys.withStore rt.store) (h e he)
    ⟨.wait c w, trivial, Option.isSome_iff_exists.mpr ⟨s, hs⟩⟩

theorem idle_release (h : ∀ e : Entry, rt.jobs[i]? = some e → e.permit = .released) :
    ¬Enabled step (· = .release i) rt := by
  rintro ⟨l, rfl, hstep⟩
  cases he : rt.jobs[i]? with
  | none => simp [step, he] at hstep
  | some e => simp [step, he, h e he] at hstep

/-- What its wait task can do on one store it can do on the store of the runtime. -/
theorem enabled_wait (he : rt.jobs[i]? = some e) {cfg : Config} (hcfg : e.cfg = cfg)
    {store : Option Store} (hstore : store.isSome = rt.store.isSome)
    (hen : Enabled (stuttering (Sys.step cfg)) waitTurn (e.sys.withStore store)) :
    Enabled step (RuntimeLabel.ofWait i) rt := by
  subst hcfg
  obtain ⟨l, hl, hstep⟩ := hen
  obtain ⟨c, w, rfl⟩ := eq_wait_of_turn hl
  obtain ⟨t, ht⟩ := Option.isSome_iff_exists.mp hstep
  replace ht : (e.sys.withStore store).step e.cfg (.wait c w) = some t := ht
  have hsame : rt.store.isSome = (e.sys.withStore store).store.isSome := hstore.symm
  obtain ⟨-, store', -, hafter⟩ := Sys.step_store hsame ht
  have hother : (e.sys.withStore rt.store).step e.cfg (.wait c w) =
      some (t.withStore store') := hafter
  refine ⟨.job i (.wait c w), by simp [RuntimeLabel.ofWait, ownLabel, taking, Label.ofWait], ?_⟩
  simp [step, he, Label.isDriver, stepEntry, hother]

end Runtime

/-! A runtime that runs for ever. -/

/-- A run of a runtime that never ends. At a moment without a label the runtime rests. -/
abbrev RuntimeBehavior := Behavior (stuttering Runtime.step)

/-- What a moment of a runtime is for one of its jobs. -/
def ownTurn (i : ℕ) (l : Option RuntimeLabel) : Option Label := l.bind (ownLabel i)

theorem Runtime.turn_cases {rt rt' : Runtime} {l : Option RuntimeLabel}
    (h : stuttering Runtime.step rt l = some rt') :
    rt' = rt ∨ ∃ own, l = some own ∧ rt.Move own rt' := by
  cases l with
  | none => exact Or.inl (Option.some.inj h).symm
  | some own => exact Or.inr ⟨own, rfl, Runtime.step_move h⟩

theorem Runtime.turn_image {rt rt' : Runtime} {l : Option RuntimeLabel} {i : ℕ} {e : Entry}
    (h : stuttering Runtime.step rt l = some rt') (hshares : rt.Shares)
    (he : rt.jobs[i]? = some e) {store : Option Store}
    (hstore : store.isSome = e.cfg.store.isSome) :
    ∃ e' store', rt'.jobs[i]? = some e' ∧ e'.cfg = e.cfg ∧ store'.isSome = e.cfg.store.isSome ∧
      stuttering (Sys.step e.cfg) (e.sys.withStore store) (ownTurn i l) =
        some (e'.sys.withStore store') := by
  cases l with
  | none => exact ⟨e, store, Option.some.inj h ▸ he, rfl, hstore, rfl⟩
  | some own => exact (Runtime.step_move h).image hshares he hstore

section Behavior

variable {config : RuntimeConfig} {maxConcurrent : ℕ} {store : Option Store}
  {persisted : List Job} {b : RuntimeBehavior} {i n : ℕ} {e : Entry}

section Start

variable (hstart : b.state 0 = Runtime.fromParts config maxConcurrent store persisted)

include hstart

theorem run_to (n : ℕ) : ∃ ls, Transition.run Runtime.step
    (Runtime.fromParts config maxConcurrent store persisted) ls = some (b.state n) := by
  have hreach := (b.reachable n).of_stuttering
  rwa [hstart] at hreach

theorem shares_at (n : ℕ) : (b.state n).Shares := by
  obtain ⟨ls, hrun⟩ := run_to hstart n
  exact Runtime.shares_of_run (Runtime.shares_of_none rfl) hrun

theorem placed_at (n : ℕ) : ∀ e ∈ (b.state n).jobs, e.Runs ∧ e.Placed := by
  obtain ⟨ls, hrun⟩ := run_to hstart n
  exact Runtime.jobs_placed rfl hrun

theorem permits_at (n : ℕ) : (b.state n).permits + (b.state n).heldPermits =
    max maxConcurrent 1 := by
  obtain ⟨ls, hrun⟩ := run_to hstart n
  exact Runtime.permits_constant hrun

/-- What no step undoes stays. -/
theorem kept_for_good {I : Runtime → Prop}
    (hmove : ∀ rt l rt', rt.Shares → (∀ e ∈ rt.jobs, e.Runs ∧ e.Placed) → rt.Move l rt' →
      I rt → I rt') : Stable (fun m => I (b.state m)) := by
  intro m hm
  rcases Runtime.turn_cases (b.next m) with hsame | ⟨own, -, hown⟩
  · rw [hsame]
    exact hm
  · exact hmove _ _ _ (shares_at hstart m) (placed_at hstart m) hown hm

/-- A runtime forgets no job. -/
theorem present_for_good : Stable (fun m => ∃ e, (b.state m).jobs[i]? = some e) :=
  kept_for_good hstart (I := fun rt => ∃ e, rt.jobs[i]? = some e)
    (fun _ _ _ hshares _ hmove ⟨_, he⟩ => by
      obtain ⟨e', he', -⟩ := hmove.entry hshares he
      exact ⟨e', he'⟩)

/-- A driver that has returned has returned for good. -/
theorem returned_for_good :
    Stable (fun m => ∃ e, (b.state m).jobs[i]? = some e ∧ e.sys.ctl = .returned) :=
  kept_for_good hstart (I := fun rt => ∃ e, rt.jobs[i]? = some e ∧ e.sys.ctl = .returned)
    (fun _ _ _ hshares _ hmove ⟨e, he, hctl⟩ => by
      obtain ⟨e', he', rfl | ⟨own, hown, -⟩⟩ := hmove.entry hshares he
      · exact ⟨_, he', hctl⟩
      · refine ⟨e', he', ?_⟩
        cases hown with
        | acquire w store s _ _ hstep | step l store s _ _ hstep =>
            exact Sys.step_returned (s := e.sys.withStore store) hctl hstep
        | release => exact hctl)

/-- Nothing changes any more in what a job has come to. -/
theorem settled_for_good {outcome : Outcome} :
    Stable (fun m => ∃ e, (b.state m).jobs[i]? = some e ∧ e.permit = .released ∧
      e.sys.Settled outcome) :=
  kept_for_good hstart
    (I := fun rt => ∃ e, rt.jobs[i]? = some e ∧ e.permit = .released ∧ e.sys.Settled outcome)
    (fun _ _ _ hshares hplaced hmove ⟨e, he, hreleased, hsettled⟩ => by
      obtain ⟨⟨store, hstore, hreach⟩, hplace⟩ := hplaced e (List.mem_of_getElem? he)
      obtain ⟨e', he', hreleased'⟩ := hmove.released hshares he hplace hreleased
      obtain ⟨found, store', hfound, -, -, hstep⟩ := hmove.image hshares he hstore
      cases he'.symm.trans hfound
      have hown : (e.sys.withStore store).Settled outcome := Sys.settled_withStore.mpr hsettled
      exact ⟨e', he', hreleased', Sys.settled_withStore.mp (hown.turn hreach hstep)⟩)

end Start

/-- A run of job `i` alone that does from the moment `n` on what the job does in the
runtime. -/
structure Shadows (b : RuntimeBehavior) (i n : ℕ) {cfg : Config} (b' : JobBehavior cfg) :
    Prop where
  reachable : Sys.Reachable cfg (b'.state 0)
  follows : ∀ k, ∃ e store, (b.state (n + k)).jobs[i]? = some e ∧ e.cfg = cfg ∧
    store.isSome = cfg.store.isSome ∧ b'.state k = e.sys.withStore store
  label : ∀ k, b'.label k = ownTurn i (b.label (n + k))

theorem exists_shadow
    (hstart : b.state 0 = Runtime.fromParts config maxConcurrent store persisted)
    (he : (b.state n).jobs[i]? = some e) : ∃ b' : JobBehavior e.cfg, Shadows b i n b' := by
  obtain ⟨own, hown, hreach⟩ := (placed_at hstart n e (List.mem_of_getElem? he)).1
  let R (rt : Runtime) (s : Sys) : Prop := ∃ e' store, rt.jobs[i]? = some e' ∧ e'.cfg = e.cfg ∧
    store.isSome = e.cfg.store.isSome ∧ s = e'.sys.withStore store
  have hsim : ∀ k s, R ((b.drop n).state k) s → ∃ own s', own = ownTurn i ((b.drop n).label k) ∧
      stuttering (Sys.step e.cfg) s own = some s' ∧ R ((b.drop n).state (k + 1)) s' := by
    rintro k s ⟨e', store, he', hcfg, hstore, rfl⟩
    obtain ⟨e'', store', he'', hcfg', hstore', hstep⟩ :=
      Runtime.turn_image ((b.drop n).next k) (shares_at hstart _) he' (hcfg ▸ hstore)
    rw [hcfg] at hcfg' hstore' hstep
    exact ⟨_, _, rfl, hstep, e'', store', he'', hcfg', hstore', rfl⟩
  obtain ⟨b', hb', himage⟩ := (b.drop n).exists_image R (fun l own => own = ownTurn i l) hsim
    (⟨e, own, he, rfl, hown, rfl⟩ : R ((b.drop n).state 0) (e.sys.withStore own))
  exact ⟨b', hb' ▸ hreach, fun k => (himage k).1, fun k => (himage k).2⟩

/-- The turns of the driver of job `i`. -/
abbrev driverTurnOf (i : ℕ) : Option RuntimeLabel → Prop := taking (RuntimeLabel.ofDriver i)

/-- The turns of its wait task. -/
abbrev waitTurnOf (i : ℕ) : Option RuntimeLabel → Prop := taking (RuntimeLabel.ofWait i)

theorem driverTurn_own {l : Option RuntimeLabel} : driverTurn (ownTurn i l) ↔ driverTurnOf i l := by
  cases l <;> exact Iff.rfl

theorem waitTurn_own {l : Option RuntimeLabel} : waitTurn (ownTurn i l) ↔ waitTurnOf i l := by
  cases l <;> exact Iff.rfl

/-- A run that passes over nobody for ever: not over a driver that can move again and
again, though it may have to wait for a permit; not over a wait task, nor over a permit
that can be dropped. Every process that was started exits some day, and its pipes end. -/
structure Runtime.Fair (b : RuntimeBehavior) : Prop where
  drivers : ∀ i, b.Compassionate (driverTurnOf i)
  waits : ∀ i, b.Just (waitTurnOf i)
  releases : ∀ i, b.Just (taking (· = .release i))
  children : ∀ (i n : ℕ) (e : Entry), (b.state n).jobs[i]? = some e → e.sys.child.isSome →
    Eventually (fun m => ∃ e' : Entry, (b.state m).jobs[i]? = some e' ∧ e'.sys.Quit) n

/-- Permits are free again and again, from `n` on. -/
def PermitsFrom (b : RuntimeBehavior) (n : ℕ) : Prop :=
  ∀ m, n ≤ m → Eventually (fun k => 0 < (b.state k).permits) m

section Fair

variable (hstart : b.state 0 = Runtime.fromParts config maxConcurrent store persisted)
  (hfair : Runtime.Fair b)

include hstart

/-- A job stays where it is while its driver rests. -/
theorem ctl_of_rests (he : (b.state n).jobs[i]? = some e)
    (hrest : ∀ m, n ≤ m → ¬driverTurnOf i (b.label m)) {m : ℕ} (hm : n ≤ m) :
    ∃ e', (b.state m).jobs[i]? = some e' ∧ e'.sys.ctl = e.sys.ctl := by
  induction m, hm using Nat.le_induction with
  | base => exact ⟨e, he, rfl⟩
  | succ m hm ih =>
      obtain ⟨e', he', hctl⟩ := ih
      have hshares := shares_at hstart m
      have hstore := (hshares e' (List.mem_of_getElem? he')).1
      obtain ⟨e'', _, he'', -, -, hstep⟩ := Runtime.turn_image (b.next m) hshares he' hstore
      refine ⟨e'', he'', (ctl_of_rest hstep ?_).trans hctl⟩
      exact fun hmoves => hrest m hm (driverTurn_own.mp hmoves)

/-- The driver of a job can move, if it need not wait for a permit. -/
theorem driver_ready (he : (b.state n).jobs[i]? = some e) (hctl : e.sys.ctl ≠ .returned)
    (hfree : e.sys.ctl.acquires = true → 0 < (b.state n).permits) :
    Enabled (stuttering Runtime.step) (driverTurnOf i) (b.state n) := by
  obtain ⟨store, -, hreach⟩ := (placed_at hstart n e (List.mem_of_getElem? he)).1
  exact enabled_stuttering.mpr (Runtime.enabled_driver he hreach.proper hctl hfree)

include hfair

/-- The driver's turn comes, also if it has to wait for a permit. -/
theorem driver_moves (he : (b.state n).jobs[i]? = some e) (hctl : e.sys.ctl ≠ .returned)
    (hpermits : e.sys.ctl.acquires = true → PermitsFrom b n) :
    Eventually (fun m => driverTurnOf i (b.label m)) n := by
  by_contra hnever
  have hrest : ∀ m, n ≤ m → ¬driverTurnOf i (b.label m) :=
    fun m hm hmoves => hnever ⟨m, hm, hmoves⟩
  have henabled : ∀ m, n ≤ m → (e.sys.ctl.acquires = true → 0 < (b.state m).permits) →
      Enabled (stuttering Runtime.step) (driverTurnOf i) (b.state m) := by
    intro m hm hfree
    obtain ⟨e', he', hsame⟩ := ctl_of_rests hstart he hrest hm
    exact driver_ready hstart he' (hsame ▸ hctl) (hsame ▸ hfree)
  refine hnever (hfair.drivers i n (fun m hm => ?_))
  cases hacquires : e.sys.ctl.acquires with
  | false => exact .now (henabled m hm (by simp [hacquires]))
  | true =>
      refine (hpermits hacquires m hm).mono (fun k hk hpos => ?_)
      exact henabled k (hm.trans hk) (fun _ => hpos)

/-- A job whose driver is not kept waiting for a permit comes to its end. -/
theorem returns_of_permits (he : (b.state n).jobs[i]? = some e)
    (hpermits : ∀ m e', n ≤ m → (b.state m).jobs[i]? = some e' → e'.sys.ctl.acquires = true →
      PermitsFrom b m) :
    Eventually (fun m => ∃ e', (b.state m).jobs[i]? = some e' ∧ e'.sys.ctl = .returned) n := by
  obtain ⟨b', hreach, hfollows, hlabel⟩ := exists_shadow hstart he
  have hdriver : b'.Just driverTurn := by
    intro k
    obtain ⟨e', store, he', hcfg, -, hstate⟩ := hfollows k
    by_cases hctl : e'.sys.ctl = .returned
    · refine .now (Or.inr (fun hen => ?_))
      rw [hstate, enabled_stuttering] at hen
      exact Sys.idle_of_returned (s := e'.sys.withStore store) hctl hen
    · have hmoves := driver_moves hstart hfair he' hctl
        (fun hacquires => hpermits _ _ (Nat.le_add_right n k) he' hacquires)
      refine (Eventually.shift.mpr hmoves).mono (fun m _ hm => Or.inl ?_)
      rw [hlabel]
      exact driverTurn_own.mpr hm
  have hwait : b'.Just waitTurn := by
    intro k
    refine (Eventually.shift.mpr (hfair.waits i (n + k))).mono (fun m _ hm => ?_)
    rw [hlabel]
    refine hm.imp waitTurn_own.mpr (fun hstuck hen => hstuck (enabled_stuttering.mpr ?_))
    obtain ⟨e', store, he', hcfg, hstore, hstate⟩ := hfollows m
    rw [hstate] at hen
    have hshares := (shares_at hstart _ e' (List.mem_of_getElem? he')).1
    exact Runtime.enabled_wait he' hcfg (hstore.trans (hshares.trans (by rw [hcfg])).symm) hen
  have hquits : ∀ k, (b'.state k).wait.pc ≠ .unspawned →
      Eventually (fun m => (b'.state m).Quit) k := by
    intro k hpc
    have hsome := (JobBehavior.always_reachable hreach k).child_of_attended hpc
    obtain ⟨e', store, he', -, -, hstate⟩ := hfollows k
    rw [hstate] at hsome
    refine (Eventually.shift.mpr (hfair.children i _ e' he' hsome)).mono (fun m _ hm => ?_)
    obtain ⟨e'', he'', hquit⟩ := hm
    obtain ⟨found, store', hfound, -, -, hstate'⟩ := hfollows m
    cases he''.symm.trans hfound
    rw [hstate']
    refine ⟨hquit.reaped, fun stream => ?_⟩
    cases stream with
    | stdout => exact hquit.ended .stdout
    | stderr => exact hquit.ended .stderr
  obtain ⟨k, -, hk⟩ := JobBehavior.returns hreach hdriver hwait hquits 0
  obtain ⟨e', store, he', -, -, hstate⟩ := hfollows k
  rw [hstate] at hk
  exact ⟨n + k, Nat.le_add_right n k, e', he', hk⟩

/-- A permit that is held is dropped. -/
theorem drops (he : (b.state n).jobs[i]? = some e) (hheld : e.permit = .held) :
    Eventually (fun m => b.label m = some (.release i)) n := by
  by_contra hnever
  have hkept : ∀ m, n ≤ m → ∃ e', (b.state m).jobs[i]? = some e' ∧ e'.permit = .held := by
    intro m hm
    induction m, hm using Nat.le_induction with
    | base => exact ⟨e, he, hheld⟩
    | succ m hm ih =>
        obtain ⟨e', he', hheld'⟩ := ih
        rcases Runtime.turn_cases (b.next m) with hsame | ⟨own, hlabel, hmove⟩
        · exact hsame ▸ ⟨e', he', hheld'⟩
        · exact hmove.held he' hheld' (fun hl => hnever ⟨m, hm, hl ▸ hlabel⟩)
  have hpermits : ∀ m (e' : Entry), n ≤ m → (b.state m).jobs[i]? = some e' →
      e'.sys.ctl.acquires = true → PermitsFrom b m := by
    intro m e' hm he' hacquires
    obtain ⟨found, hfound, hheld'⟩ := hkept m hm
    cases he'.symm.trans hfound
    have hplaced := (placed_at hstart m _ (List.mem_of_getElem? he')).2
    rw [hplaced.acquires (by rw [hheld']; exact Permit.noConfusion)] at hacquires
    cases hacquires
  obtain ⟨k, hk, hback⟩ := returns_of_permits hstart hfair he hpermits
  obtain ⟨m, hm, hreleased | hstuck⟩ := hfair.releases i k
  · obtain ⟨own, hlabel, rfl⟩ := eq_of_taking hreleased
    exact hnever ⟨m, hk.trans hm, hlabel⟩
  · obtain ⟨e', he', hheld'⟩ := hkept m (hk.trans hm)
    obtain ⟨found, hfound, hctl⟩ := (returned_for_good hstart).le hm hback
    cases he'.symm.trans hfound
    refine hstuck (enabled_stuttering.mpr ⟨.release i, rfl, ?_⟩)
    simp [Runtime.step, he', hctl, hheld', Ctl.isReturned]

/-- What is there once a permit has been dropped. -/
theorem dropped (he : (b.state n).jobs[i]? = some e) (hheld : e.permit = .held) :
    Eventually (fun m => 0 < (b.state m).permits ∧ ∃ e', (b.state m).jobs[i]? = some e' ∧
      e'.permit = .released ∧ e'.sys.ctl = .returned) n := by
  refine (drops hstart hfair he hheld).bind (fun m _ hlabel => .earlier (Nat.le_succ m) (.now ?_))
  have hstep := b.next m
  rw [hlabel] at hstep
  have hmove : (b.state m).Move (.release i) (b.state (m + 1)) := Runtime.step_move hstep
  generalize b.state (m + 1) = after at hmove ⊢
  cases hmove with
  | release j found hfound hctl hheld =>
      have hlen := (List.getElem?_eq_some_iff.mp hfound).1
      exact ⟨Nat.succ_pos _, { found with permit := .released }, by simp [hlen], rfl, hctl⟩

/-- Permits become free again and again. -/
theorem permits_from (n : ℕ) : PermitsFrom b n := by
  intro m _
  by_cases hpos : 0 < (b.state m).permits
  · exact .now hpos
  · have hconstant := permits_at hstart m
    have hone := Nat.le_max_right maxConcurrent 1
    have hholds : 0 < (b.state m).heldPermits := by omega
    obtain ⟨e, hmem, hholds⟩ := List.countP_pos_iff.mp hholds
    obtain ⟨i, he⟩ := List.mem_iff_getElem?.mp hmem
    have hheld : e.permit = .held := by simpa [Entry.holds] using hholds
    exact (dropped hstart hfair he hheld).mono (fun k _ hk => hk.1)

/-- Every job comes to its end. -/
theorem settles_for_good (he : (b.state n).jobs[i]? = some e) :
    ∃ outcome k, ∀ m, k ≤ m → ∃ e', (b.state m).jobs[i]? = some e' ∧
      e'.permit = .released ∧ e'.sys.Settled outcome := by
  obtain ⟨k, hk, e', he', hctl⟩ :=
    returns_of_permits hstart hfair he (fun m _ _ _ _ => permits_from hstart hfair m)
  have hback : Eventually (fun m => ∃ e'', (b.state m).jobs[i]? = some e'' ∧
      e''.permit = .released ∧ e''.sys.ctl = .returned) k := by
    have hplaced := (placed_at hstart k e' (List.mem_of_getElem? he')).2
    cases hplaced with
    | waiting hpermit hqueued => exact absurd hctl hqueued.unreturned
    | released hpermit => exact .now ⟨e', he', hpermit, hctl⟩
    | held hpermit => exact (dropped hstart hfair he' hpermit).mono (fun m _ hm => hm.2)
  obtain ⟨m, hm, e'', he'', hreleased, hreturned⟩ := hback
  obtain ⟨store, hstore, hreach⟩ := (placed_at hstart m e'' (List.mem_of_getElem? he'')).1
  obtain ⟨outcome, hsettled⟩ := hreach.settled (s := e''.sys.withStore store) hreturned
  exact ⟨outcome, m, fun j hj => (settled_for_good hstart).le hj
    ⟨e'', he'', hreleased, Sys.settled_withStore.mp hsettled⟩⟩

end Fair

/-- In every fair run of a runtime a permit is free again and again, and every job that
is ever accepted comes to its end: at some moment its permit is back, it is finalized in
the snapshot and the answer channel holds the outcome, and so it is ever after. -/
theorem jobs_finalized
    (hstart : b.state 0 = Runtime.fromParts config maxConcurrent store persisted)
    (hfair : Runtime.Fair b) (he : (b.state n).jobs[i]? = some e) :
    (∀ m, Eventually (fun k => 0 < (b.state k).permits) m) ∧
    ∃ outcome k, ∀ m, k ≤ m → ∃ e', (b.state m).jobs[i]? = some e' ∧
      e'.permit = .released ∧ e'.sys.Settled outcome :=
  ⟨fun m => permits_from hstart hfair m m (le_refl m), settles_for_good hstart hfair he⟩

end Behavior

/-- Both jobs of a runtime with one permit, to their ends. -/
def bothRun : List RuntimeLabel :=
  spawnTwo ++ onJob 1 (drive 2) ++ onJob 0 quietRun ++ [.release 0] ++
    onJob 1 (drive 10 ++ leaveQuietly ++ drive 18) ++ [.release 1]

theorem bothRun_runs : (Transition.run Runtime.step soloRuntime bothRun).isSome = true := by
  decide

def bothEnd : Runtime := Transition.endOf _ _ bothRun bothRun_runs

theorem bothEnd_idles : Runtime.step bothEnd (.job 0 .pollHandle) = some bothEnd := by
  have hpolled : (bothEnd.jobs[0]?).map (fun e => (e.sys.handleYields, e.sys.store.isNone)) =
      some (some (.succeeded none []), true) := by decide
  obtain ⟨e, he, hpolled⟩ := Option.map_eq_some_iff.mp hpolled
  obtain ⟨hyields, hnone⟩ := Prod.mk.injEq .. ▸ hpolled
  refine Runtime.poll_idles he ?_ hyields
  rw [Option.isNone_iff_eq_none.mp hnone]
  exact (Option.isNone_iff_eq_none.mp (by decide)).symm

theorem bothEnd_done : bothEnd.jobs.all (fun e => e.sys.ctl.isReturned &&
    e.sys.wait.pc.delivered && e.permit = .released && e.sys.group.waitStatus.isSome &&
    e.sys.stdout.fin.isSome && e.sys.stderr.fin.isSome) = true := by
  decide

/-- Nobody is left to move. -/
theorem bothEnd_rests {i : ℕ} {e : Entry} (he : bothEnd.jobs[i]? = some e) :
    e.sys.ctl = .returned ∧ e.sys.wait.pc.delivered = true ∧ e.permit = .released ∧
      e.sys.Quit := by
  have h := List.all_eq_true.mp bothEnd_done e (List.mem_of_getElem? he)
  simp only [Bool.and_eq_true, decide_eq_true_eq] at h
  obtain ⟨⟨⟨⟨⟨hctl, hpc⟩, hpermit⟩, hreaped⟩, hout⟩, herr⟩ := h
  exact ⟨Ctl.eq_returned hctl, hpc, hpermit, hreaped,
    fun stream => by cases stream <;> assumption⟩

/-- The run, with the handle polled for ever. -/
theorem bothRun_goes_on : ∃ b : RuntimeBehavior, b.state 0 = soloRuntime ∧
    (∀ first rest, bothRun = first ++ rest →
      Transition.run Runtime.step soloRuntime first = some (b.state first.length)) ∧
    ∀ m, bothRun.length ≤ m → b.state m = bothEnd := by
  obtain ⟨b, hstart, hfirst, hend⟩ := (Behavior.constant bothEnd_idles).exists_prepended
    (Transition.run_endOf _ _ bothRun_runs)
  refine ⟨b.stuttered, hstart, hfirst, fun m hm => ?_⟩
  obtain ⟨n, rfl⟩ := Nat.exists_eq_add_of_le hm
  exact (hend n).1

theorem jobs_finalized_both : ∃ b : RuntimeBehavior, b.state 0 = soloRuntime ∧
    ∃ n e, (b.state n).jobs[1]? = some e ∧
      (∀ m, Eventually (fun k => 0 < (b.state k).permits) m) ∧
      ∃ outcome k, ∀ m, k ≤ m → ∃ e', (b.state m).jobs[1]? = some e' ∧
        e'.permit = .released ∧ e'.sys.Settled outcome := by
  obtain ⟨b, hstart, -, hstate⟩ := bothRun_goes_on
  have hnever : ∀ A : RuntimeLabel → Prop, ¬Enabled Runtime.step A bothEnd →
      b.Compassionate (taking A) := by
    intro A hidle
    refine Behavior.compassionate_of_never (n := bothRun.length) (fun m hm hen => hidle ?_)
    rw [hstate m hm] at hen
    exact enabled_stuttering.mp hen
  have hfair : Runtime.Fair b := by
    refine ⟨fun i => hnever _ (Runtime.idle_driver (fun e he => (bothEnd_rests he).1)),
      fun i => (hnever _ (Runtime.idle_wait (fun e he => (bothEnd_rests he).2.1))).just,
      fun i => (hnever _ (Runtime.idle_release (fun e he => (bothEnd_rests he).2.2.1))).just,
      fun i n e he _ => ?_⟩
    obtain ⟨e', he'⟩ := (present_for_good hstart).le (Nat.le_max_left n bothRun.length) ⟨e, he⟩
    refine ⟨max n bothRun.length, Nat.le_max_left _ _, e', he', ?_⟩
    rw [hstate _ (Nat.le_max_right _ _)] at he'
    exact (bothEnd_rests he').2.2.2
  have hhere : (b.state bothRun.length).jobs[1]?.isSome = true := by
    rw [hstate _ (le_refl _)]
    decide
  obtain ⟨e, he⟩ := Option.isSome_iff_exists.mp hhere
  exact ⟨b, hstart, _, e, he, jobs_finalized hstart hfair he⟩

end Execra
