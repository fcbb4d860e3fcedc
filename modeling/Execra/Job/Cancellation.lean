import Execra.Job.Snapshot
import Execra.Job.Verdict

/-!
Which `cancel` calls are heard. A call that does not find the job finalized
cancels the token, but the driver reads the token once, after its loop, and
does not read it at all when the process could not be spawned. A call that
cancels the token after the one, or before the other, returns `Ok` and has no
say in the outcome. In every run without such a call, and without such a
failure to spawn, an accepted call decides the outcome.
-/

namespace Execra

/-- The driver is about to spawn the process. -/
def Ctl.spawns : Ctl → Bool
  | .run (.op .spawnChild _) => true
  | _ => false

/-- A step in which no cancellation goes unheard: the token is cancelled before
the driver has read it and before the spawn has failed, or had been cancelled
already; and the spawn does not fail after the token was cancelled. -/
def Sys.HearsCancel (s : Sys) : Label → Prop
  | .cancelToken => s.token = true ∨ (s.verdict = none ∧ s.spawnFailed = false)
  | .driver w => s.ctl.spawns = true → w.spawned.isOk = false → s.token = false
  | _ => True

instance (s : Sys) : (l : Label) → Decidable (s.HearsCancel l)
  | .cancelToken =>
      inferInstanceAs (Decidable (s.token = true ∨ (s.verdict = none ∧ s.spawnFailed = false)))
  | .driver w =>
      inferInstanceAs
        (Decidable (s.ctl.spawns = true → w.spawned.isOk = false → s.token = false))
  | .wait _ _ | .cancelCheck | .pollHandle | .arrive _ _ | .close _ _ | .exitLeader _ _
  | .failWait _ | .exitDescendant _ _ | .fork _ _ | .elapse _ => inferInstanceAs (Decidable True)

/-- What a step does to the token, to the number of accepted calls and to the
driver's two reasons not to hear one. -/
inductive Sys.HearingStep (s t : Sys) : Label → Prop where
  | same (l) (htoken : t.token = s.token) (haccepted : t.accepted = s.accepted)
      (hspawn : t.spawnFailed = s.spawnFailed) (hverdict : t.verdict = s.verdict) :
      HearingStep s t l
  | cancel (htoken : t.token = true) (haccepted : t.accepted = s.accepted + 1)
      (hspawn : t.spawnFailed = s.spawnFailed) (hverdict : t.verdict = s.verdict) :
      HearingStep s t .cancelToken
  | failSpawn (w) (hctl : s.ctl.spawns = true) (hfails : w.spawned.isOk = false)
      (hspawn : t.spawnFailed = true) (htoken : t.token = s.token)
      (haccepted : t.accepted = s.accepted)
      (hverdict : t.verdict = s.verdict) : HearingStep s t (.driver w)
  | judge (w) (htoken : t.token = s.token) (haccepted : t.accepted = s.accepted)
      (hspawn : t.spawnFailed = s.spawnFailed) (hverdict : t.verdict = some s.token) :
      HearingStep s t (.driver w)

theorem Sys.act_hearing {cfg : Config} {w : Oracle} {o : Op} {s t : Sys}
    {k : o.Ans → Driver Next} (hctl : s.ctl = .run (.op o k))
    (ht : t = { (s.act cfg w o).2 with ctl := settle (k (s.act cfg w o).1) }) :
    s.HearingStep t (.driver w) := by
  have hleaves := s.act_leaves cfg w o
  have htoken := hleaves.token
  have haccepted := hleaves.accepted
  subst ht
  cases o with
  | spawnChild =>
      cases hw : w.spawned with
      | ok pid => exact .same _ htoken haccepted (by simp [act, hw]) (by simp [act, hw])
      | error e =>
          exact .failSpawn w (by rw [hctl]; rfl) (by rw [hw]; rfl) (by simp [act, hw]) htoken
            haccepted (by simp [act, hw])
  | isCancelled => exact .judge w htoken haccepted rfl rfl
  | openRawFile =>
      by_cases hopens : w.rawOpens <;>
        exact .same _ htoken haccepted (by simp [act, hopens]) (by simp [act, hopens])
  | upsertSnapshot =>
      cases hstore : s.store <;> by_cases hok : w.upsertOk <;>
        exact .same _ htoken haccepted (by simp [act, upsertSnapshot, hstore, hok])
          (by simp [act, upsertSnapshot, hstore, hok])
  | writeRaw text =>
      by_cases hopen : s.rawOpen <;>
        exact .same _ htoken haccepted (by simp [act, hopen]) (by simp [act, hopen])
  | _ => exact .same _ htoken haccepted rfl rfl

theorem Sys.step_hearing {cfg : Config} {s t : Sys} {l : Label}
    (h : s.step cfg l = some t) : s.HearingStep t l := by
  cases Sys.step_by h with
  | driver w h =>
      rcases Sys.driverStep_cases h with ⟨o, k, hctl, ht⟩ | ⟨v, hctl, hmove⟩
      · exact Sys.act_hearing hctl ht
      · cases hmove with
        | op w' o k hctl' => rw [hctl] at hctl'; cases hctl'
        | _ => exact .same _ rfl rfl rfl rfl
  | wait c w h =>
      have hmove := Sys.waitStep_move h
      cases hmove <;> exact .same _ rfl rfl rfl rfl
  | world l h =>
      cases h with
      | cancelToken hcallers => exact .cancel rfl rfl rfl rfl
      | arrive stream _ | close stream _ => cases stream <;> exact .same _ rfl rfl rfl rfl
      | _ => exact .same _ rfl rfl rfl rfl

/-- The token is cancelled by an accepted call, and by nothing else; the driver
reads it as it is. -/
structure Sys.Tokened (s : Sys) : Prop where
  accepted : s.token = true ↔ 0 < s.accepted
  read : s.verdict = some true → s.token = true

theorem Sys.Reachable.tokened {cfg : Config} {s : Sys} (hs : Sys.Reachable cfg s) :
    s.Tokened := by
  refine Transition.Reachable.invariant hs
    ⟨by simp [Sys.init], by simp [Sys.init]⟩ ?_
  intro s l t h hstep
  cases Sys.step_hearing hstep with
  | same _ htoken haccepted _ hverdict =>
      exact ⟨by rw [htoken, haccepted]; exact h.accepted, by rw [htoken, hverdict]; exact h.read⟩
  | cancel htoken haccepted => exact ⟨by simp [htoken, haccepted], fun _ => htoken⟩
  | failSpawn _ _ _ _ htoken haccepted hverdict =>
      exact ⟨by rw [htoken, haccepted]; exact h.accepted, by rw [htoken, hverdict]; exact h.read⟩
  | judge _ htoken haccepted _ hverdict =>
      exact ⟨by rw [htoken, haccepted]; exact h.accepted,
        by rw [htoken, hverdict]; exact Option.some.inj⟩

/-- The driver will not hear a call that comes now. -/
def Sys.Deaf (s : Sys) : Prop := s.spawnFailed = true ∨ s.verdict = some false

section Run

variable {cfg : Config} {s t : Sys} {ls : List Label}

theorem Sys.Deaf.step {l : Label} (h : s.Deaf) (hs : Sys.Reachable cfg s)
    (hstep : s.step cfg l = some t) : t.Deaf := by
  rcases h with hfailed | hread
  · left
    cases Sys.step_hearing hstep with
    | same _ _ _ hspawn _ => rw [hspawn, hfailed]
    | cancel _ _ hspawn _ => rw [hspawn, hfailed]
    | failSpawn _ _ _ hspawn => exact hspawn
    | judge _ _ _ hspawn _ => rw [hspawn, hfailed]
  · right
    rw [(Sys.step_move hstep).verdict_once hs (by simp [hread]), hread]

/-- A step that hears the cancellation does not make the driver deaf to it. -/
theorem Sys.Deaf.of_step {l : Label} (hs : Sys.Reachable cfg s) (hhears : s.HearsCancel l)
    (hstep : s.step cfg l = some t) (haccepted : 0 < t.accepted) (h : t.Deaf) :
    0 < s.accepted ∧ s.Deaf := by
  have htokened := hs.tokened
  cases Sys.step_hearing hstep with
  | same _ _ hcount hspawn hverdict =>
      rw [Deaf, hspawn, hverdict] at h
      exact ⟨hcount ▸ haccepted, h⟩
  | cancel _ _ hspawn hverdict =>
      rw [Deaf, hspawn, hverdict] at h
      rcases hhears with hbefore | ⟨hnone, hspawned⟩
      · exact ⟨htokened.accepted.mp hbefore, h⟩
      · simp [hnone, hspawned] at h
  | failSpawn w hctl hfails _ htoken hcount _ =>
      have hpos := htokened.accepted.mpr (hcount ▸ haccepted)
      rw [hhears hctl hfails] at hpos
      cases hpos
  | judge w _ hcount hspawn hverdict =>
      have htoken := htokened.accepted.mpr (hcount ▸ haccepted)
      rw [Deaf, hspawn, hverdict, htoken] at h
      exact ⟨hcount ▸ haccepted, h.imp_right nofun⟩

/-- A driver that has heard every cancellation is not deaf to one. -/
theorem not_deaf_of_run
    (hmeet : Transition.StepsMeet (Sys.step cfg) Sys.HearsCancel (Sys.init cfg) ls)
    (hrun : Transition.run (Sys.step cfg) (Sys.init cfg) ls = some s)
    (haccepted : 0 < s.accepted) : ¬ s.Deaf := by
  refine Sys.run_invariant (I := fun u => 0 < u.accepted → ¬ u.Deaf) hmeet hrun
    (fun h => absurd h (by simp [Sys.init])) ?_ haccepted
  intro u l u' hu _ hkept hhears hstep hpos hdeaf
  obtain ⟨hpos', hdeaf'⟩ := Sys.Deaf.of_step hu hhears hstep hpos hdeaf
  exact hkept hpos' hdeaf'

/-- A cancellation that is not heard leaves a driver that hears none. -/
theorem Sys.deaf_of_missed {l : Label} (hs : Sys.Reachable cfg s)
    (hstep : s.step cfg l = some t) (hmissed : ¬ s.HearsCancel l) : t.Deaf := by
  cases l with
  | cancelToken =>
      simp only [HearsCancel, not_or, not_and] at hmissed
      have hdeaf : s.Deaf := by
        cases hverdict : s.verdict with
        | none => exact Or.inl (by simpa using hmissed.2 hverdict)
        | some read =>
            cases read with
            | true => exact absurd (hs.tokened.read hverdict) hmissed.1
            | false => exact Or.inr hverdict
      exact hdeaf.step hs hstep
  | driver w =>
      simp only [HearsCancel, Classical.not_imp] at hmissed
      obtain ⟨hctl, hfails, -⟩ := hmissed
      rcases Sys.driverStep_cases hstep with ⟨o, k, hop, rfl⟩ | ⟨v, htop, -⟩
      · left
        rw [hop] at hctl
        cases o <;> simp only [Ctl.spawns, Bool.false_eq_true] at hctl
        cases hw : w.spawned with
        | ok pid => rw [hw] at hfails; cases hfails
        | error e => simp [act, hw]
      · rw [htop] at hctl; cases hctl
  | _ => exact absurd trivial hmissed

/-- A run hears every cancellation, or ends with a driver that hears none. -/
theorem meets_or_deaf (hrun : Transition.run (Sys.step cfg) (Sys.init cfg) ls = some s) :
    Transition.StepsMeet (Sys.step cfg) Sys.HearsCancel (Sys.init cfg) ls ∨ s.Deaf := by
  refine Sys.run_induction (P := fun _ _ => True)
    (fun done u =>
      Transition.StepsMeet (Sys.step cfg) Sys.HearsCancel (Sys.init cfg) done ∨ u.Deaf)
    (Transition.stepsMeet_of_forall (fun _ _ => trivial) _ _) hrun (Or.inl trivial) ?_
  rintro done m l t hm hor - hstep
  have hreach : Sys.Reachable cfg m := ⟨done, hm⟩
  rcases hor with hmeet | hdeaf
  · by_cases hhears : m.HearsCancel l
    · exact Or.inl (hmeet.snoc hm hhears)
    · exact Or.inr (Sys.deaf_of_missed hreach hstep hhears)
  · exact Or.inr (hdeaf.step hreach hstep)

/-- The outcome is `Cancelled` unless the driver is deaf. -/
theorem Sys.Reachable.isCancelled_iff (hs : Sys.Reachable cfg s) {outcome : Outcome}
    (hsome : s.job.outcome = some outcome) : outcome.isCancelled = true ↔ ¬ s.Deaf := by
  rcases hs.judged.1 outcome hsome with
    ⟨hfailed, error, rfl⟩ | ⟨hspawned, read, state, hverdict, heq⟩
  · have hdeaf : s.Deaf := Or.inl hfailed
    simp [hdeaf, Outcome.isCancelled]
  · have hspawned' : s.spawnFailed = false := hspawned
    have hverdict' : s.verdict = some read := hverdict
    rw [heq, verdictOf, computeOutcome_isCancelled, Deaf, hspawned', hverdict']
    cases read <;> simp

/-- Wherever the job has an outcome, in the snapshot, in `Finalized` or from the
handle, it is `Cancelled`; and it has one when the driver has returned. -/
structure Sys.DecidedCancelled (s : Sys) : Prop where
  snapshot : ∀ outcome, s.job.outcome = some outcome → outcome.isCancelled = true
  event : ∀ e ∈ s.log, ∀ outcome, e.body = .finalized outcome → outcome.isCancelled = true
  handle : ∀ outcome, s.handleYields = some outcome → outcome.isCancelled = true
  returned : s.ctl = .returned → s.job.outcome.isSome

theorem Sys.Reachable.decided (hs : Sys.Reachable cfg s) (h : ¬ s.Deaf) :
    s.DecidedCancelled where
  snapshot _ hsome := (hs.isCancelled_iff hsome).mpr h
  event _ he _ hbody := (hs.isCancelled_iff (hs.outcome_of_finalized he hbody)).mpr h
  handle _ hyields := (hs.isCancelled_iff (hs.outcome_of_yields hyields)).mpr h
  returned := hs.outcome_of_returned

/-- In a run that hears every cancellation an accepted call decides the outcome
in every state; and if it has decided the outcome when the driver returns, the
run has heard every cancellation. -/
theorem accepted_cancel_decides
    (hrun : Transition.run (Sys.step cfg) (Sys.init cfg) ls = some s)
    (haccepted : 0 < s.accepted) :
    (Transition.StepsMeet (Sys.step cfg) Sys.HearsCancel (Sys.init cfg) ls →
      s.DecidedCancelled) ∧
    (s.ctl = .returned → s.DecidedCancelled →
      Transition.StepsMeet (Sys.step cfg) Sys.HearsCancel (Sys.init cfg) ls) := by
  have hs : Sys.Reachable cfg s := ⟨ls, hrun⟩
  refine ⟨fun hmeet => hs.decided (not_deaf_of_run hmeet hrun haccepted),
    fun hret hdecided => ?_⟩
  obtain ⟨outcome, hsome⟩ := Option.isSome_iff_exists.mp (hdecided.returned hret)
  have hheard : ¬ s.Deaf := (hs.isCancelled_iff hsome).mp (hdecided.snapshot outcome hsome)
  exact (meets_or_deaf hrun).resolve_right hheard

end Run

/-- The child leaves by itself, and a call cancels the token when the driver
has taken `n` steps since. The driver reads the token in the eleventh. -/
def cancelAfter (n : Nat) : List Label :=
  drive 12 ++ leaveQuietly ++ drive n ++ [.cancelCheck, .cancelToken] ++ drive (18 - n)

theorem heardCancel_runs :
    (Transition.run (Sys.step plainConfig) (Sys.init plainConfig) (cancelAfter 10)).isSome =
      true := by
  decide

def heardCancelEnd : Sys := Transition.endOf _ _ (cancelAfter 10) heardCancel_runs

theorem accepted_cancel_decides_draining :
    heardCancelEnd.job.outcome = some (.cancelled []) ∧ heardCancelEnd.DecidedCancelled :=
  ⟨by decide, (accepted_cancel_decides
    (Transition.run_endOf (Sys.init plainConfig) (cancelAfter 10) heardCancel_runs)
    (by decide)).1 (by decide)⟩

theorem lateCancel_runs :
    (Transition.run (Sys.step plainConfig) (Sys.init plainConfig) (cancelAfter 11)).isSome =
      true := by
  decide

/-- The call comes between the driver's read of the token and its update of the
snapshot. -/
def lateCancelEnd : Sys := Transition.endOf _ _ (cancelAfter 11) lateCancel_runs

/-- The call comes while the job is queued, and the process cannot be spawned. -/
def queuedCancelRun : List Label :=
  [.cancelCheck, .cancelToken] ++ drive 4 ++
    [.driver { spawned := .error ⟨"No such file or directory"⟩ }] ++ drive 7

theorem queuedCancel_runs :
    (Transition.run (Sys.step plainConfig) (Sys.init plainConfig) queuedCancelRun).isSome =
      true := by
  decide

def queuedCancelEnd : Sys := Transition.endOf _ _ queuedCancelRun queuedCancel_runs

theorem accepted_cancel_unheard :
    (Sys.Reachable plainConfig lateCancelEnd ∧ 0 < lateCancelEnd.accepted ∧
      lateCancelEnd.job.outcome = some (.succeeded none []) ∧
      ¬ lateCancelEnd.DecidedCancelled) ∧
    (Sys.Reachable plainConfig queuedCancelEnd ∧ 0 < queuedCancelEnd.accepted ∧
      queuedCancelEnd.job.outcome =
        some (.failed (.spawnFailed "No such file or directory") none []) ∧
      ¬ queuedCancelEnd.DecidedCancelled) := by
  have hlate : lateCancelEnd.job.outcome = some (.succeeded none []) := by decide
  have hqueued : queuedCancelEnd.job.outcome =
      some (.failed (.spawnFailed "No such file or directory") none []) := by decide
  exact ⟨⟨Transition.reachable_endOf _ _ lateCancel_runs, by decide, hlate,
      fun h => absurd (h.snapshot _ hlate) (by decide)⟩,
    ⟨Transition.reachable_endOf _ _ queuedCancel_runs, by decide, hqueued,
      fun h => absurd (h.snapshot _ hqueued) (by decide)⟩⟩

end Execra
