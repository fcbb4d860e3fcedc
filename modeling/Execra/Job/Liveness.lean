import Execra.Job.Turns

/-!
A job comes to its end. Nothing in `drive_job` or in the wait task waits for
something that may never come, except for the child: once the child has exited
and its pipes have ended, every schedule that does not pass over the driver or
the wait task for ever brings the driver out of `drive_job`. The schedule is a
run that never ends, with moments at which somebody else moves; so it may be
that of one job among the jobs of a runtime.
-/

namespace Execra

open Transition

/-- A run of a job that never ends. At a moment without a label the job rests. -/
abbrev JobBehavior (cfg : Config) := Behavior (stuttering (Sys.step cfg))

/-- What is left for the wait task to do. -/
def WaitPc.rank : WaitPc → ℕ
  | .unspawned => 11
  | .spawned => 10
  | .select => 9
  | .cancelStamp => 8
  | .cancelSend _ => 7
  | .cancelInsert _ => 6
  | .terminate => 5
  | .grace _ => 4
  | .kill _ => 3
  | .reap _ => 2
  | .deliver _ _ => 1
  | .finished _ => 0

theorem Sys.WaitMove.rank_lt {cfg : Config} {s t : Sys} (h : s.WaitMove cfg t) :
    t.wait.pc.rank < s.wait.pc.rank := by
  cases h <;> simp [Sys.waitAt, WaitPc.rank, *]

/-- The driver can move unless it has returned. -/
theorem Sys.enabled_driver (cfg : Config) {s : Sys} (hproper : s.ctl.Proper)
    (hctl : s.ctl ≠ .returned) : Enabled (stuttering (Sys.step cfg)) driverTurn s := by
  refine ⟨some (.driver {}), trivial, ?_⟩
  simp only [stuttering, Sys.step, Sys.driverStep]
  generalize s.ctl = c at hproper hctl
  cases hproper with
  | op o k => rfl
  | top v => cases hended : v.ended <;> simp [hended]
  | returned => exact absurd rfl hctl

/-- What the wait task waits for has come. -/
def Sys.WaitReady (cfg : Config) (s : Sys) : Prop :=
  match s.wait.pc with
  | .unspawned | .finished _ => False
  | .select => s.group.waitStatus.isSome ∨ s.token = true ∨
      timerElapsed s.wait.startedAt cfg.spec.timeout s.instant = true
  | .grace deadline => s.group.waitStatus.isSome ∨ deadline ≤ s.instant
  | .reap _ => s.group.waitStatus.isSome
  | _ => True

theorem Sys.WaitReady.enabled {cfg : Config} {s : Sys} (h : s.WaitReady cfg) :
    Enabled (stuttering (Sys.step cfg)) waitTurn s := by
  unfold WaitReady at h
  cases hwait : s.wait.pc with
  | unspawned | finished => rw [hwait] at h; exact h.elim
  | select =>
      rw [hwait] at h
      rcases h with hreaped | htoken | hover
      · obtain ⟨status, hstatus⟩ := Option.isSome_iff_exists.mp hreaped
        exact ⟨some (.wait .child {}), trivial, by
          simp [stuttering, Sys.step, Sys.waitStep, hwait, hstatus]⟩
      · exact ⟨some (.wait .cancel {}), trivial, by
          simp [stuttering, Sys.step, Sys.waitStep, hwait, htoken]⟩
      · exact ⟨some (.wait .timer {}), trivial, by
          simp [stuttering, Sys.step, Sys.waitStep, hwait, hover]⟩
  | grace deadline =>
      rw [hwait] at h
      rcases h with hreaped | hover
      · obtain ⟨status, hstatus⟩ := Option.isSome_iff_exists.mp hreaped
        exact ⟨some (.wait .child {}), trivial, by
          simp [stuttering, Sys.step, Sys.waitStep, hwait, hstatus]⟩
      · exact ⟨some (.wait .timer {}), trivial, by
          simp [stuttering, Sys.step, Sys.waitStep, hwait, hover]⟩
  | reap branch =>
      rw [hwait] at h
      obtain ⟨status, hstatus⟩ := Option.isSome_iff_exists.mp h
      exact ⟨some (.wait .go {}), trivial, by
        simp [stuttering, Sys.step, Sys.waitStep, hwait, hstatus]⟩
  | _ => exact ⟨some (.wait .go {}), trivial, by simp [stuttering, Sys.step, Sys.waitStep, hwait]⟩

/-- All that the wait task waits for is there once the child has been reaped. -/
theorem Sys.waitReady_of_reaped (cfg : Config) {s : Sys} (hready : s.group.waitStatus.isSome)
    (hpc : s.wait.pc ≠ .unspawned) (hopen : s.wait.pc.delivered = false) : s.WaitReady cfg := by
  unfold WaitReady
  cases hwait : s.wait.pc with
  | unspawned => exact hpc hwait
  | finished branch => rw [hwait] at hopen; cases hopen
  | select | grace deadline => exact Or.inl hready
  | reap branch => exact hready
  | _ => trivial

namespace JobBehavior

variable {cfg : Config} {b : JobBehavior cfg}

theorem always_reachable (hb : Sys.Reachable cfg (b.state 0)) (n : ℕ) :
    Sys.Reachable cfg (b.state n) := by
  induction n with
  | zero => exact hb
  | succ n ih =>
      rcases stuttering_cases (b.next n) with hsame | ⟨own, hlabel, -⟩
      · rw [hsame]
        exact ih
      · have hstep := b.next n
        rw [hlabel] at hstep
        exact Transition.Reachable.extend ih hstep

/-- A program of the driver hands over what one of its ends returns. Meanwhile
everything is kept that the job keeps while the driver is not at its loop. -/
theorem settles (hb : Sys.Reachable cfg (b.state 0)) (hdriver : b.Just driverTurn)
    {K : ℕ → Prop} (hK : ∀ m, K m → (∀ v, (b.state m).ctl ≠ .top v) → K (m + 1))
    (p : Driver Next) (n : ℕ) (hctl : (b.state n).ctl = settle p) (hn : K n) :
    Eventually (fun m => (∃ next, p.Yields next ∧ (b.state m).ctl = settle (.ret next)) ∧ K m)
      n := by
  induction p generalizing n with
  | ret next => exact .now ⟨⟨next, .ret next, hctl⟩, hn⟩
  | op o k ih =>
      have hturn := hdriver.turn (Q := fun m => (b.state m).ctl = settle (.op o k) ∧ K m)
        ⟨hctl, hn⟩ (fun m _ hm hrest => ⟨(ctl_of_rest (b.next m) hrest).trans hm.1,
          hK m hm.2 (by rw [hm.1]; exact fun v => Ctl.noConfusion)⟩)
        (.now (fun m _ hm => Sys.enabled_driver cfg (always_reachable hb m).proper
          (by rw [hm.1]; exact Ctl.noConfusion)))
      refine hturn.bind (fun m hm hboth => ?_)
      obtain ⟨hmoves, hctl, hKm⟩ := hboth
      obtain ⟨w, hlabel⟩ := eq_driver_of_turn hmoves
      have hrun : (b.state m).ctl = .run (.op o k) := hctl
      have hstep := b.next m
      rw [hlabel] at hstep
      have hnext : (b.state (m + 1)).ctl = settle (k ((b.state m).act cfg w o).1) := by
        rcases Sys.driverStep_cases hstep with ⟨o', k', hrun', hafter⟩ | ⟨v, htop, -⟩
        · cases hrun.symm.trans hrun'
          rw [hafter]
        · cases hrun.symm.trans htop
      have hKnext := hK m hKm (by rw [hctl]; exact fun v => Ctl.noConfusion)
      refine ((ih _ (m + 1) hnext hKnext).mono (fun j _ hj => ?_)).earlier (Nat.le_succ m)
      obtain ⟨⟨next, hyields, hend⟩, hKj⟩ := hj
      exact ⟨⟨next, .op o k _ hyields, hend⟩, hKj⟩

/-- A wait task that is not stuck for ever at any of its places delivers. -/
theorem delivers_of_open (hb : Sys.Reachable cfg (b.state 0)) (hwait : b.Just waitTurn) {n : ℕ}
    (hpc : (b.state n).wait.pc ≠ .unspawned)
    (hopen : ∀ m, n ≤ m → (b.state m).wait.pc.delivered = false →
      Eventually (fun k => ∀ j, k ≤ j → (b.state j).wait.pc = (b.state m).wait.pc →
        (b.state j).WaitReady cfg) m) :
    Eventually (fun m => (b.state m).wait.pc.delivered = true) n := by
  refine eventually_of_descent (fun m => (b.state m).wait.pc.rank)
    (I := fun m => n ≤ m ∧ (b.state m).wait.pc ≠ .unspawned) ?_ ⟨le_refl n, hpc⟩
  rintro m ⟨hm, hpc⟩
  cases hdelivered : (b.state m).wait.pc.delivered with
  | true => exact .now (Or.inl hdelivered)
  | false =>
      have hstays : ∀ j, m ≤ j → (b.state j).wait.pc = (b.state m).wait.pc →
          ¬waitTurn (b.label j) → (b.state (j + 1)).wait.pc = (b.state m).wait.pc := by
        intro j _ hsame hrest
        rw [← hsame] at hpc ⊢
        rw [wait_of_rest (always_reachable hb j) (always_reachable hb (j + 1)) (b.next j) hrest
          hpc]
      have hturn := hwait.turn (Q := fun j => (b.state j).wait.pc = (b.state m).wait.pc) rfl
        hstays ((hopen m hm hdelivered).mono (fun k _ hk j hj hsame => (hk j hj hsame).enabled))
      refine hturn.bind (fun j hj hboth => ?_)
      obtain ⟨hmoves, hsame⟩ := hboth
      obtain ⟨c, w, hlabel⟩ := eq_wait_of_turn hmoves
      have hstep := b.next j
      rw [hlabel] at hstep
      have hmove : (b.state j).WaitMove cfg (b.state (j + 1)) := Sys.waitStep_move hstep
      refine .earlier (Nat.le_succ j) (.now (Or.inr ⟨⟨?_, hmove.spawned.2.1⟩, ?_⟩))
      · omega
      · rw [← hsame]
        exact hmove.rank_lt

/-- A child that has quit has quit for good. -/
theorem quit_stable : Stable (fun n => (b.state n).Quit) := fun n h => h.turn (b.next n)

/-- The wait task is there for good. -/
theorem spawned_le (hb : Sys.Reachable cfg (b.state 0)) {n m : ℕ} (hle : n ≤ m)
    (h : (b.state n).wait.pc ≠ .unspawned) : (b.state m).wait.pc ≠ .unspawned := by
  refine Stable.le (P := fun n => (b.state n).wait.pc ≠ .unspawned) (fun n hpc => ?_) hle h
  by_cases hmoves : waitTurn (b.label n)
  · obtain ⟨c, w, hlabel⟩ := eq_wait_of_turn hmoves
    have hstep := b.next n
    rw [hlabel] at hstep
    exact (Sys.waitStep_move hstep).spawned.2.1
  · show (b.state (n + 1)).wait.pc ≠ .unspawned
    rwa [wait_of_rest (always_reachable hb n) (always_reachable hb (n + 1)) (b.next n) hmoves hpc]

/-- What the wait task has delivered it has delivered for good. -/
theorem delivered_stable (hb : Sys.Reachable cfg (b.state 0)) :
    Stable (fun n => (b.state n).wait.pc.delivered = true) := by
  intro n h
  have hpc : (b.state n).wait.pc ≠ .unspawned := by
    intro hpc
    rw [hpc] at h
    cases h
  by_cases hmoves : waitTurn (b.label n)
  · obtain ⟨c, w, hlabel⟩ := eq_wait_of_turn hmoves
    have hstep := b.next n
    rw [hlabel] at hstep
    have hbefore := (Sys.waitStep_move hstep).channel_cases.2.1
    rw [h] at hbefore
    cases hbefore
  · rwa [wait_of_rest (always_reachable hb n) (always_reachable hb (n + 1)) (b.next n) hmoves hpc]

/-- The wait task of a child that has quit delivers. -/
theorem delivers (hb : Sys.Reachable cfg (b.state 0)) (hwait : b.Just waitTurn) {n : ℕ}
    (hquit : (b.state n).Quit) (hpc : (b.state n).wait.pc ≠ .unspawned) :
    Eventually (fun m => (b.state m).wait.pc.delivered = true) n := by
  refine delivers_of_open hb hwait hpc (fun m hm hopen => .now (fun j hj hsame => ?_))
  refine Sys.waitReady_of_reaped cfg (quit_stable.le (hm.trans hj) hquit).reaped ?_ (hsame ▸ hopen)
  exact spawned_le hb (hm.trans hj) hpc

/-- The driver's turn comes, or it has returned. -/
theorem driver_moves (hb : Sys.Reachable cfg (b.state 0)) (hdriver : b.Just driverTurn) (n : ℕ) :
    Eventually (fun m => (b.state m).ctl = .returned ∨ driverTurn (b.label m)) n := by
  refine (hdriver n).mono (fun m _ hm => ?_)
  rcases hm with hmoves | hstuck
  · exact Or.inr hmoves
  · by_contra hneither
    exact hstuck (Sys.enabled_driver cfg (always_reachable hb m).proper (hneither ∘ Or.inl))

/-- What is left to do at the head of the loop. -/
def toDo (b : JobBehavior cfg) (n : ℕ) : ℕ :=
  (b.state n).unread +
    match (b.state n).ctl with
    | .top v => v.pending
    | _ => 0

/-- A loop that is over is left. -/
theorem leaves (hb : Sys.Reachable cfg (b.state 0)) (hdriver : b.Just driverTurn) {n : ℕ}
    {v : LoopVars} (hctl : (b.state n).ctl = .top v) (hended : v.ended = true) :
    Eventually (fun m => (b.state m).ctl = .returned) n := by
  have hturn := hdriver.turn (Q := fun m => (b.state m).ctl = .top v) hctl
    (fun m _ hm hrest => (ctl_of_rest (b.next m) hrest).trans hm)
    (.now (fun m _ hm => Sys.enabled_driver cfg (always_reachable hb m).proper
      (by rw [hm]; exact Ctl.noConfusion)))
  refine hturn.bind (fun m _ hboth => ?_)
  obtain ⟨hmoves, hctl⟩ := hboth
  obtain ⟨w, hlabel⟩ := eq_driver_of_turn hmoves
  have hstep := b.next m
  rw [hlabel] at hstep
  have hnext : (b.state (m + 1)).ctl = settle (exitLoop cfg v) := by
    have hdone : some { b.state m with ctl := settle (exitLoop cfg v) } =
        some (b.state (m + 1)) := by
      simpa [stuttering, Sys.step, Sys.driverStep, hctl, hended] using hstep
    rw [← Option.some.inj hdone]
  refine ((settles hb hdriver (K := fun _ => True) (fun _ _ _ => trivial) _ _ hnext
    trivial).mono (fun j _ hj => ?_)).earlier (Nat.le_succ m)
  obtain ⟨⟨next, hyields, hend⟩, -⟩ := hj
  rw [yields_exitLoop hyields] at hend
  exact hend

/-- At the head of a loop that is not over there is less to do at some later moment, once
the child has quit. -/
theorem does_less (hb : Sys.Reachable cfg (b.state 0)) (hdriver : b.Just driverTurn)
    (hwait : b.Just waitTurn) {n : ℕ} (hquit : (b.state n).Quit) {v : LoopVars}
    (hctl : (b.state n).ctl = .top v) (hended : v.ended = false) :
    Eventually (fun m => (b.state m).Quit ∧ (∃ v', (b.state m).ctl = .top v') ∧
      b.toDo m < b.toDo n) n := by
  have hpc := (always_reachable hb n).attended_at_top hctl
  -- a turn of the driver that finds the exit delivered, if there is none that completes before
  have hsoon : Eventually (fun m => (b.state m).ctl = .returned ∨ driverTurn (b.label m) ∧
      ((b.state m).wait.pc.delivered = true ∨ b.state (m + 1) ≠ b.state m)) n := by
    refine (delivers hb hwait hquit hpc).bind (fun k _ hdelivered => ?_)
    refine (driver_moves hb hdriver k).mono (fun m hm => Or.imp_right (fun hmoves => ?_))
    exact ⟨hmoves, Or.inl ((delivered_stable hb).le hm hdelivered)⟩
  have hkept := hsoon.keeping (Q := fun m => (b.state m).Quit ∧ (b.state m).ctl = .top v ∧
    (b.state m).unread = (b.state n).unread) ⟨hquit, hctl, rfl⟩ ?_
  · refine hkept.bind (fun m _ hboth => ?_)
    obtain ⟨hmoves, hquit, hctl', hread⟩ := hboth
    obtain ⟨hmoves, hfinds⟩ := hmoves.resolve_left (by rw [hctl']; exact Ctl.noConfusion)
    obtain ⟨w, hlabel⟩ := eq_driver_of_turn hmoves
    have hstep := b.next m
    rw [hlabel] at hstep
    cases hquit.driverStep hctl' hended hstep with
    | waits hsame hexited hempty =>
        rcases hfinds with hdelivered | hchanged
        · obtain ⟨outcome, hsent⟩ := (always_reachable hb m).sent_of_delivered hctl' hexited
            hdelivered
          exact absurd hsent (hempty outcome)
        · exact absurd hsame hchanged
    | completes r hr hnext hless =>
        have hquit' := hquit.turn (b.next m)
        refine ((settles hb hdriver (K := fun j => (b.state j).Quit ∧
          (b.state j).unread = (b.state (m + 1)).unread) ?_ _ _ hnext
          ⟨hquit', rfl⟩).mono (fun j _ hj => ?_)).earlier (Nat.le_succ m)
        · rintro j ⟨hquit, hread⟩ htop
          exact ⟨hquit.turn (b.next j), (hquit.unread (b.next j) (Or.inr htop)).trans hread⟩
        · obtain ⟨⟨next, hyields, hend⟩, hquit, hread'⟩ := hj
          obtain ⟨v', rfl, hafter⟩ := yields_loopTurn hr hyields
          have htop : (b.state j).ctl = .top v' := hend
          have hlt := hless v' hafter
          refine ⟨hquit, ⟨v', htop⟩, ?_⟩
          simp only [toDo, htop, hctl]
          omega
  · intro m _ hm hrest
    obtain ⟨hquit, hctl', hread⟩ := hm
    by_cases hmoves : driverTurn (b.label m)
    · have hsame : b.state (m + 1) = b.state m := by
        by_contra hchanged
        exact hrest (Or.inr ⟨hmoves, Or.inr hchanged⟩)
      rw [hsame]
      exact ⟨hquit, hctl', hread⟩
    · exact ⟨hquit.turn (b.next m), (ctl_of_rest (b.next m) hmoves).trans hctl',
        (hquit.unread (b.next m) (Or.inl hmoves)).trans hread⟩

/-- Once the child has quit, a driver at the head of its loop leaves `drive_job`. -/
theorem returns_of_quit (hb : Sys.Reachable cfg (b.state 0)) (hdriver : b.Just driverTurn)
    (hwait : b.Just waitTurn) {n : ℕ} (hquit : (b.state n).Quit) {v : LoopVars}
    (hctl : (b.state n).ctl = .top v) : Eventually (fun m => (b.state m).ctl = .returned) n := by
  refine eventually_of_descent b.toDo
    (I := fun m => (b.state m).Quit ∧ ∃ v, (b.state m).ctl = .top v) ?_ ⟨hquit, v, hctl⟩
  rintro m ⟨hquit, v, hctl⟩
  cases hended : v.ended with
  | true => exact (leaves hb hdriver hctl hended).mono (fun _ _ => Or.inl)
  | false =>
      refine (does_less hb hdriver hwait hquit hctl hended).mono (fun k _ hk => ?_)
      exact Or.inr ⟨⟨hk.1, hk.2.1⟩, hk.2.2⟩

/-- A job whose child, once it is attended, quits some day comes to its end. -/
theorem returns (hb : Sys.Reachable cfg (b.state 0)) (hdriver : b.Just driverTurn)
    (hwait : b.Just waitTurn)
    (hquits : ∀ n, (b.state n).wait.pc ≠ .unspawned → Eventually (fun m => (b.state m).Quit) n)
    (n : ℕ) : Eventually (fun m => (b.state m).ctl = .returned) n := by
  have harrives : ∀ {n} {K : ℕ → Prop},
      (∀ m, K m → (∀ v, (b.state m).ctl ≠ .top v) → K (m + 1)) → K n →
      Eventually (fun m => (b.state m).ctl = .returned ∨
        (∃ v, (b.state m).ctl = .top v) ∧ K m) n := by
    intro n K hK hn
    cases hctl : (b.state n).ctl with
    | returned => exact .now (Or.inl hctl)
    | top v => exact .now (Or.inr ⟨⟨v, hctl⟩, hn⟩)
    | run p =>
        have hproper := (always_reachable hb n).proper
        rw [hctl] at hproper
        cases hproper with
        | op o k =>
            refine (settles hb hdriver hK (.op o k) n hctl hn).mono (fun m _ hm => ?_)
            obtain ⟨⟨next, -, hend⟩, hKm⟩ := hm
            cases next with
            | loop v => exact Or.inr ⟨⟨v, hend⟩, hKm⟩
            | returned => exact Or.inl hend
  refine (harrives (K := fun _ => True) (fun _ _ _ => trivial) trivial).bind (fun m _ hm => ?_)
  rcases hm with hreturned | ⟨⟨v, hctl⟩, -⟩
  · exact .now hreturned
  · refine (hquits m ((always_reachable hb m).attended_at_top hctl)).bind (fun k _ hquit => ?_)
    -- by then the driver may be anywhere
    refine (harrives (fun j hj _ => quit_stable j hj) hquit).bind (fun j _ hj => ?_)
    rcases hj with hreturned | ⟨⟨v', hctl'⟩, hquit'⟩
    · exact .now hreturned
    · exact returns_of_quit hb hdriver hwait hquit' hctl'

/-- A driver that has returned has returned for good. -/
theorem returned_stable : Stable (fun n => (b.state n).ctl = .returned) := by
  intro n h
  have hrest : ¬driverTurn (b.label n) := by
    intro hmoves
    obtain ⟨w, hlabel⟩ := eq_driver_of_turn hmoves
    have hstep := b.next n
    rw [hlabel] at hstep
    rcases Sys.driverStep_cases hstep with ⟨o, k, hctl, -⟩ | ⟨v, hctl, -⟩
    · cases h.symm.trans hctl
    · cases h.symm.trans hctl
  exact (ctl_of_rest (b.next n) hrest).trans h

end JobBehavior

/-- The job is over, with one outcome for everybody. -/
structure Sys.Settled (s : Sys) (outcome : Outcome) : Prop where
  returned : s.ctl = .returned
  state : s.job.state = .finalized
  snapshot : s.job.outcome = some outcome
  answer : s.outcomeRx.value = some outcome
  sent : ∃ event ∈ s.log, event.body = .finalized outcome

theorem Sys.Reachable.settled {cfg : Config} {s : Sys} (hs : Sys.Reachable cfg s)
    (hctl : s.ctl = .returned) : ∃ outcome, s.Settled outcome := by
  obtain ⟨outcome, hanswer⟩ := Option.isSome_iff_exists.mp (hs.answered hctl)
  have hsome := hs.outcome_of_answer hanswer
  have hstate : s.job.state = .finalized :=
    hs.readable.1.outcome.mp (Option.isSome_iff_exists.mpr ⟨outcome, hsome⟩)
  obtain ⟨other, hagreed⟩ := hs.readable.2 (Or.inr (hs.answered hctl))
  obtain ⟨event, hevent, hbody⟩ := hagreed.sent
  have hlog : event ∈ s.log := (hs.mem_sent_iff.mp hevent).1
  have hsame : other = outcome := Option.some.inj (hagreed.snapshot.symm.trans hsome)
  exact ⟨outcome, hctl, hstate, hsome, hanswer, event, hlog, hsame ▸ hbody⟩

/-- What is settled stays settled. -/
theorem Sys.Settled.move {cfg : Config} {s t : Sys} {outcome : Outcome} (h : s.Settled outcome)
    (hs : Sys.Reachable cfg s) (ht : Sys.Reachable cfg t) (hmove : s.Move cfg t)
    (hctl : t.ctl = .returned) : t.Settled outcome := by
  obtain ⟨other, hother⟩ := ht.settled hctl
  have hsame := (hmove.answer_once hs ht h.answer).symm.trans hother.answer
  rwa [Option.some.inj hsame]

/-- The driver puts an answer into the channel and takes none out. -/
theorem Sys.act_outcomeRx (cfg : Config) (w : Oracle) (o : Op) (s : Sys) :
    (s.act cfg w o).2.outcomeRx = s.outcomeRx ∨
      ∃ outcome, (s.act cfg w o).2.outcomeRx = .sent outcome := by
  cases o with
  | reply outcome => exact Or.inr ⟨outcome, rfl⟩
  | openRawFile | spawnChild | writeRaw => simp only [act]; split <;> exact Or.inl rfl
  | upsertSnapshot =>
      simp only [act, upsertSnapshot]
      split
      · exact Or.inl rfl
      · split <;> exact Or.inl rfl
  | _ => exact Or.inl rfl

/-- The answer is taken out of the channel by the handle only. -/
theorem Sys.Reachable.yields_of_taken {cfg : Config} {s : Sys} (hs : Sys.Reachable cfg s) :
    ∀ outcome, s.outcomeRx = .taken outcome → s.handleYields.isSome := by
  refine hs.invariant (I := fun s => ∀ outcome, s.outcomeRx = .taken outcome →
    s.handleYields.isSome) (fun _ h => by cases h) ?_
  intro s t _ _ hI hmove outcome htaken
  cases hmove with
  | driver h =>
      cases h with
      | op w o k hctl =>
          rcases s.act_outcomeRx cfg w o with hsame | ⟨answer, hsent⟩
          · have hyields := hI outcome (hsame.symm.trans htaken)
            rwa [← (s.act_leaves cfg w o).handleYields] at hyields
          · rw [hsent] at htaken
            cases htaken
      | _ => exact hI outcome htaken
  | wait h => cases h <;> exact hI outcome htaken
  | world h =>
      cases h with
      | handleAnswered answer hrx => rfl
      | handleOrphaned hctl hrx => rfl
      | arrive stream _ | close stream _ => cases stream <;> exact hI outcome htaken
      | _ => exact hI outcome htaken

/-- A poll of the handle of a settled job. -/
theorem Sys.Settled.pollHandle {cfg : Config} {s : Sys} {outcome : Outcome}
    (h : s.Settled outcome) (hs : Sys.Reachable cfg s) :
    s.pollHandle.handleYields = some outcome := by
  cases hyields : s.handleYields with
  | some other =>
      have hsame := (hs.value_of_yields other hyields).symm.trans h.answer
      simpa [Sys.pollHandle, hyields] using hsame
  | none =>
      have hanswer := h.answer
      cases hrx : s.outcomeRx with
      | empty => rw [hrx] at hanswer; cases hanswer
      | sent answer =>
          rw [hrx] at hanswer
          simpa [Sys.pollHandle, hyields, hrx, Oneshot.value] using hanswer
      | taken answer =>
          have hsome := hs.yields_of_taken answer hrx
          rw [hyields] at hsome
          cases hsome

/-- The child of a wait task. -/
theorem Sys.Reachable.child_of_attended {cfg : Config} {s : Sys} (hs : Sys.Reachable cfg s)
    (hpc : s.wait.pc ≠ .unspawned) : s.child.isSome := by
  cases hs.tasked with
  | unspawned _ hinit => exact absurd (by rw [hinit]) hpc
  | spawned pid hchild => rw [hchild]; rfl

/-- What a job whose driver returns comes to, and its handle. -/
theorem settles_down {cfg : Config} (b : Behavior (Sys.step cfg))
    (hstart : b.state 0 = Sys.init cfg)
    (hreturns : Eventually (fun n => (b.state n).ctl = .returned) 0) :
    ∃ outcome n, (∀ m, n ≤ m → (b.state m).Settled outcome) ∧
      ((∀ m, Eventually (fun k => b.label k = .pollHandle) m) →
        Eventually (fun m => (b.state m).handleYields = some outcome) n) := by
  have hb : Sys.Reachable cfg (b.stuttered.state 0) := hstart ▸ Transition.Reachable.refl _
  have hreach := JobBehavior.always_reachable hb
  obtain ⟨n, -, hreturned⟩ := hreturns
  obtain ⟨outcome, hsettled⟩ := (hreach n).settled hreturned
  have hstable : Stable (fun m => (b.state m).Settled outcome) := fun m hm =>
    hm.move (hreach m) (hreach (m + 1)) (Sys.step_move (b.next m))
      (JobBehavior.returned_stable (b := b.stuttered) m hm.returned)
  refine ⟨outcome, n, fun m hm => hstable.le hm hsettled, fun hpolled => ?_⟩
  refine (hpolled n).bind (fun k hk hlabel => .earlier (Nat.le_succ k) (.now ?_))
  have hstep := b.next k
  rw [hlabel] at hstep
  rw [← Option.some.inj hstep]
  exact (hstable.le hk hsettled).pollHandle (hreach k)

/-- A started job is not left behind. In every run that passes over neither the driver
nor the wait task for ever, and in which the child, if there is one, exits some day and
its pipes end, the driver returns, and from then on the snapshot, the event and the
channel of the handle carry one outcome; and a handle that is polled again and again
resolves with it. -/
theorem drive_job_returns {cfg : Config} (b : Behavior (Sys.step cfg))
    (hstart : b.state 0 = Sys.init cfg) (hdriver : b.Just Label.ofDriver)
    (hwait : b.Just Label.ofWait)
    (hchild : ∀ n, (b.state n).child.isSome → Eventually (fun m => (b.state m).Quit) n) :
    ∃ outcome n, (∀ m, n ≤ m → (b.state m).Settled outcome) ∧
      ((∀ m, Eventually (fun k => b.label k = .pollHandle) m) →
        Eventually (fun m => (b.state m).handleYields = some outcome) n) := by
  have hb : Sys.Reachable cfg (b.stuttered.state 0) := hstart ▸ Transition.Reachable.refl _
  refine settles_down b hstart ?_
  exact JobBehavior.returns hb hdriver.stuttered hwait.stuttered (fun n hpc =>
    hchild n ((JobBehavior.always_reachable hb n).child_of_attended hpc)) 0

/-- A driver that has returned has no step left. -/
theorem Sys.idle_of_returned {cfg : Config} {s : Sys} (hctl : s.ctl = .returned) :
    ¬Enabled (Sys.step cfg) Label.ofDriver s := by
  rintro ⟨l, hl, hstep⟩
  cases l with
  | driver w => simp [Sys.step, Sys.driverStep, hctl] at hstep
  | _ => exact hl

/-- Nor has a wait task that has delivered. -/
theorem Sys.idle_of_delivered {cfg : Config} {s : Sys} (hpc : s.wait.pc.delivered = true) :
    ¬Enabled (Sys.step cfg) Label.ofWait s := by
  rintro ⟨l, hl, hstep⟩
  obtain ⟨t, ht⟩ := Option.isSome_iff_exists.mp hstep
  cases l with
  | wait c w =>
      have hbefore := (Sys.waitStep_move ht).channel_cases.2.1
      rw [hpc] at hbefore
      cases hbefore
  | _ => exact hl

def quietRun : List Label := drive 12 ++ leaveQuietly ++ drive 18 ++ [.pollHandle]

theorem quietRun_runs :
    (Transition.run (Sys.step plainConfig) (Sys.init plainConfig) quietRun).isSome = true := by
  decide

def quietEnd : Sys := Transition.endOf _ _ quietRun quietRun_runs

theorem quietEnd_idles : Sys.step plainConfig quietEnd .pollHandle = some quietEnd := by
  have hyields : quietEnd.handleYields = some (.succeeded none []) := by decide
  simp [Sys.step, Sys.pollHandle, hyields]

theorem drive_job_returns_quiet : ∃ b : Behavior (Sys.step plainConfig),
    b.state 0 = Sys.init plainConfig ∧
    ∃ outcome n, (∀ m, n ≤ m → (b.state m).Settled outcome) ∧
      Eventually (fun m => (b.state m).handleYields = some outcome) n := by
  obtain ⟨b, hstart, -, hend⟩ := (Behavior.constant quietEnd_idles).exists_prepended
    (Transition.run_endOf _ _ quietRun_runs)
  have hstate : ∀ m, quietRun.length ≤ m → b.state m = quietEnd := by
    intro m hm
    obtain ⟨n, rfl⟩ := Nat.exists_eq_add_of_le hm
    exact (hend n).1
  have hreturned : quietEnd.ctl = .returned := by rfl
  have hdriver : ¬Enabled (Sys.step plainConfig) Label.ofDriver quietEnd :=
    Sys.idle_of_returned hreturned
  have hwait : ¬Enabled (Sys.step plainConfig) Label.ofWait quietEnd :=
    Sys.idle_of_delivered (by decide)
  have hquit : quietEnd.Quit := ⟨by decide, fun stream => by cases stream <;> decide⟩
  obtain ⟨outcome, n, hsettled, hpolled⟩ := drive_job_returns b hstart
    (Behavior.compassionate_of_never (fun m hm => by rw [hstate m hm]; exact hdriver)).just
    (Behavior.compassionate_of_never (fun m hm => by rw [hstate m hm]; exact hwait)).just
    (fun n _ => by
      refine .earlier (Nat.le_max_left n quietRun.length) (.now ?_)
      rw [hstate _ (Nat.le_max_right _ _)]
      exact hquit)
  refine ⟨b, hstart, outcome, n, hsettled, hpolled (fun m => ?_)⟩
  exact ⟨quietRun.length + m, Nat.le_add_left _ _, (hend m).2⟩

end Execra
