import Execra.Job.Liveness
import Execra.Job.Signals

/-!
A job that is to stop does stop. When the token is cancelled, or the command has a
timeout, the wait task is stuck at none of its places, whatever the child does: the
first `select!` is left for the token or the timer, the grace period runs out, and after
`kill_child` it waits for a process that is dead or cannot help dying.
-/

namespace Execra

open Transition

/-! Whom SIGKILL has reached. -/

/-- The leader is dead or has been sent SIGKILL. -/
def Group.Doomed (g : Group) : Prop := g.leader.exited = true ∨ g.leader.gotKill = true

theorem WaitPc.reaped_of_delivered {pc : WaitPc} (h : pc.delivered = true) : pc.reaped = true := by
  cases pc <;> first | rfl | cases h

/-- A leader that has exited can be waited for. -/
def Group.Waited (g : Group) : Prop := g.leader.exited = true → g.waitStatus.isSome

theorem Group.Move.doomed {g g' : Group} (hmove : g.Move g') (h : g.Doomed) : g'.Doomed := by
  cases hmove with
  | exitLeader => exact Or.inl rfl
  | _ => exact h

theorem Group.Move.waited {g g' : Group} (hmove : g.Move g') (h : g.Waited) : g'.Waited := by
  cases hmove with
  | exitLeader | failWait => exact fun _ => rfl
  | _ => exact h

theorem Process.receive_exited (p : Process) (sig : Signal) :
    (p.receive sig).exited = p.exited := by
  cases sig <;> simp only [receive] <;> split <;> rfl

theorem terminateChild_waited {g : Group} (h : g.Waited) (procGroup : Option ProcessGroup) :
    (terminateChild g procGroup).Waited := by
  cases procGroup <;>
    simpa [Group.Waited, terminateChild, Group.killpg, Group.startKill, Process.receive_exited]
      using h

theorem killChild_waited {g : Group} (h : g.Waited) (procGroup : Option ProcessGroup) :
    (killChild g procGroup).Waited := by
  cases procGroup <;>
    simpa [Group.Waited, killChild, Group.killpg, Group.startKill, Process.receive_exited]
      using h

theorem killChild_doomed (g : Group) (procGroup : Option ProcessGroup) :
    (killChild g procGroup).Doomed := by
  cases procGroup <;> exact g.leader.receive_kill

/-- What the wait task relies on where it waits: its timer runs, and whom it has killed
it need not wait for in vain. -/
structure Sys.Armed (s : Sys) : Prop where
  started : s.wait.pc = .select → s.wait.startedAt.isSome
  doomed : ∀ branch, s.wait.pc = .reap branch → s.group.Doomed
  waited : s.group.Waited

section Armed

variable {cfg : Config} {s t : Sys}

theorem Sys.Armed.wait (h : s.Armed) (hmove : s.WaitMove cfg t) : t.Armed := by
  cases hmove with
  | start hpc => exact ⟨fun _ => rfl, fun _ => WaitPc.noConfusion, h.waited⟩
  | terminate hpc =>
      exact ⟨WaitPc.noConfusion, fun _ => WaitPc.noConfusion, terminateChild_waited h.waited _⟩
  | kill branch hpc =>
      exact ⟨WaitPc.noConfusion, fun _ _ => killChild_doomed _ _, killChild_waited h.waited _⟩
  | _ => exact ⟨WaitPc.noConfusion, fun _ => WaitPc.noConfusion, h.waited⟩

theorem Sys.Reachable.armed (hs : Sys.Reachable cfg s) : s.Armed := by
  refine hs.invariant (I := Sys.Armed)
    ⟨WaitPc.noConfusion, fun _ => WaitPc.noConfusion, Bool.noConfusion⟩ ?_
  intro s t _ ht h hmove
  cases hmove with
  | driver hmove =>
      have hgroup := hmove.ends.1
      rcases hmove.wait_cases ht with ⟨hsame, -⟩ | ⟨pid, -, -, -, hnew⟩
      · exact ⟨by rw [hsame]; exact h.started, by rw [hsame, hgroup]; exact h.doomed,
          by rw [hgroup]; exact h.waited⟩
      · exact ⟨by rw [hnew]; exact WaitPc.noConfusion,
          by rw [hnew]; exact fun _ => WaitPc.noConfusion, by rw [hgroup]; exact h.waited⟩
  | wait hmove => exact h.wait hmove
  | world hmove =>
      have hsame := hmove.tasks.wait
      refine ⟨by rw [hsame]; exact h.started, ?_, ?_⟩
      · rw [hsame]
        rcases hmove.aside.group with hgroup | hgroup
        · rw [hgroup]; exact h.doomed
        · exact fun branch hpc => hgroup.doomed (h.doomed branch hpc)
      · rcases hmove.aside.group with hgroup | hgroup
        · rw [hgroup]; exact h.waited
        · exact hgroup.waited h.waited

theorem Sys.act_instant (cfg : Config) (w : Oracle) (o : Op) (s : Sys) :
    (s.act cfg w o).2.instant = s.instant := by
  cases o with
  | openRawFile | spawnChild | writeRaw => simp only [act]; split <;> rfl
  | upsertSnapshot =>
      simp only [act, upsertSnapshot]
      split
      · rfl
      · split <;> rfl
  | _ => rfl

/-- The clock does not go back, and a token is not taken back. -/
theorem Sys.StepBy.later {own : Label} (h : s.StepBy cfg own t) :
    s.instant ≤ t.instant ∧ (s.token = true → t.token = true) := by
  cases h with
  | driver w h =>
      cases Sys.driverStep_move h with
      | op w o k hctl =>
          have hinstant := s.act_instant cfg w o
          exact ⟨Nat.le_of_eq hinstant.symm, fun h => (s.act_leaves cfg w o).token ▸ h⟩
      | _ => exact ⟨Nat.le_refl _, id⟩
  | wait c w h => cases Sys.waitStep_move h <;> exact ⟨Nat.le_refl _, id⟩
  | world _ h =>
      cases h with
      | elapse d => exact ⟨Nat.le_add_right _ _, id⟩
      | cancelToken hcallers => exact ⟨Nat.le_refl _, fun _ => rfl⟩
      | arrive stream | close stream => cases stream <;> exact ⟨Nat.le_refl _, id⟩
      | _ => exact ⟨Nat.le_refl _, id⟩

/-- The timer is armed once. -/
theorem Sys.WaitMove.startedAt (h : s.WaitMove cfg t) (hpc : s.wait.pc ≠ .spawned) :
    t.wait.startedAt = s.wait.startedAt ∧ t.wait.pc ≠ .spawned := by
  cases h with
  | start hstart => exact absurd hstart hpc
  | _ => exact ⟨rfl, WaitPc.noConfusion⟩

end Armed

/-! What the world owes a job that is to stop. -/

/-- Time passes, SIGKILL is obeyed, and the pipes of a child that has been reaped end. -/
structure JobBehavior.Obliging {cfg : Config} (b : JobBehavior cfg) : Prop where
  clock : ∀ d n, Eventually (fun m => d ≤ (b.state m).instant) n
  obeys : ∀ n, (b.state n).group.leader.gotKill = true →
    Eventually (fun m => (b.state m).group.waitStatus.isSome) n
  ends : ∀ n, (b.state n).group.waitStatus.isSome → ∀ stream,
    Eventually (fun m => ((b.state m).pipe stream).fin.isSome) n

namespace JobBehavior

variable {cfg : Config} {b : JobBehavior cfg}

theorem instant_stable (d : Instant) : Stable (fun n => d ≤ (b.state n).instant) := by
  intro n h
  rcases stuttering_cases (b.next n) with hsame | ⟨own, -, hby⟩
  · rw [hsame]
    exact h
  · exact h.trans hby.later.1

theorem token_stable : Stable (fun n => (b.state n).token = true) := by
  intro n h
  rcases stuttering_cases (b.next n) with hsame | ⟨own, -, hby⟩
  · rw [hsame]
    exact h
  · exact hby.later.2 h

theorem waitStatus_stable : Stable (fun n => (b.state n).group.waitStatus.isSome) := by
  intro n h
  rcases stuttering_cases (b.next n) with hsame | ⟨own, -, hby⟩
  · rw [hsame]
    exact h
  · exact hby.waitStatus h

theorem fin_stable (stream : Stream) : Stable (fun n => ((b.state n).pipe stream).fin.isSome) := by
  intro n h
  rcases stuttering_cases (b.next n) with hsame | ⟨own, -, hby⟩
  · rw [hsame]
    exact h
  · exact hby.fin h

/-- The instant from which a timer counts does not change. -/
theorem startedAt_stable (hb : Sys.Reachable cfg (b.state 0)) (start : Option Instant) :
    Stable (fun n => (b.state n).wait.startedAt = start ∧ (b.state n).wait.pc ≠ .unspawned ∧
      (b.state n).wait.pc ≠ .spawned) := by
  rintro n ⟨hstart, hpc, hstarted⟩
  by_cases hmoves : waitTurn (b.label n)
  · obtain ⟨c, w, hlabel⟩ := eq_wait_of_turn hmoves
    have hstep := b.next n
    rw [hlabel] at hstep
    have hmove : (b.state n).WaitMove cfg (b.state (n + 1)) := Sys.waitStep_move hstep
    obtain ⟨hsame, hstill⟩ := hmove.startedAt hstarted
    exact ⟨hsame.trans hstart, hmove.spawned.2.1, hstill⟩
  · rw [wait_of_rest (always_reachable hb n) (always_reachable hb (n + 1)) (b.next n) hmoves hpc]
    exact ⟨hstart, hpc, hstarted⟩

variable (hb : Sys.Reachable cfg (b.state 0)) (hworld : b.Obliging)
  (hstops : cfg.spec.timeout.isSome ∨ ∃ n, (b.state n).token = true)

include hb hworld hstops

/-- The first `select!` does not wait for the child alone. -/
theorem select_ready {m : ℕ} (hpc : (b.state m).wait.pc = .select) :
    Eventually (fun k => ∀ j, k ≤ j → (b.state j).token = true ∨
      timerElapsed (b.state j).wait.startedAt cfg.spec.timeout (b.state j).instant = true) m := by
  rcases hstops with htimeout | ⟨n, htoken⟩
  · obtain ⟨period, hperiod⟩ := Option.isSome_iff_exists.mp htimeout
    obtain ⟨start, hstart⟩ :=
      Option.isSome_iff_exists.mp ((always_reachable hb m).armed.started hpc)
    refine (hworld.clock (start + period) m).mono (fun k hk hover j hj => Or.inr ?_)
    have hsame := (startedAt_stable hb (some start)).le (hk.trans hj)
      ⟨hstart, by rw [hpc]; exact WaitPc.noConfusion, by rw [hpc]; exact WaitPc.noConfusion⟩
    have hlate : start + period ≤ (b.state j).instant := (instant_stable _).le hj hover
    simpa [timerElapsed, hsame.1, hperiod] using hlate
  · exact ⟨max m n, Nat.le_max_left m n, fun j hj =>
      Or.inl (token_stable.le ((Nat.le_max_right m n).trans hj) htoken)⟩

/-- The wait task of a job that is to stop delivers. -/
theorem delivers_of_stop (hwait : b.Just waitTurn) {n : ℕ}
    (hpc : (b.state n).wait.pc ≠ .unspawned) :
    Eventually (fun m => (b.state m).wait.pc.delivered = true) n := by
  refine delivers_of_open hb hwait hpc (fun m hm hopen => ?_)
  have hreaps : (b.state m).group.Doomed →
      Eventually (fun k => ∀ j, k ≤ j → (b.state j).group.waitStatus.isSome) m := by
    rintro (hexited | hkilled)
    · have hwaited := (always_reachable hb m).armed.waited hexited
      exact .now (fun j hj => waitStatus_stable.le hj hwaited)
    · exact (hworld.obeys m hkilled).mono (fun k _ hk j hj => waitStatus_stable.le hj hk)
  unfold Sys.WaitReady
  cases hpc' : (b.state m).wait.pc with
  | unspawned => exact absurd hpc' (spawned_le hb hm hpc)
  | finished branch => rw [hpc'] at hopen; cases hopen
  | select =>
      refine (select_ready hb hworld hstops hpc').mono (fun k _ hk j hj hsame => ?_)
      rw [hsame]
      exact Or.inr (hk j hj)
  | grace deadline =>
      refine (hworld.clock deadline m).mono (fun k _ hk j hj hsame => ?_)
      rw [hsame]
      exact Or.inr ((instant_stable deadline).le hj hk)
  | reap branch =>
      refine (hreaps ((always_reachable hb m).armed.doomed branch hpc')).mono
        (fun k _ hk j hj hsame => ?_)
      rw [hsame]
      exact hk j hj
  | _ =>
      refine .now (fun j _ hsame => ?_)
      rw [hsame]
      trivial

/-- The child of a job that is to stop quits. -/
theorem quits_of_stop (hwait : b.Just waitTurn) {n : ℕ}
    (hpc : (b.state n).wait.pc ≠ .unspawned) : Eventually (fun m => (b.state m).Quit) n := by
  refine (delivers_of_stop hb hworld hstops hwait hpc).bind (fun m _ hdelivered => ?_)
  have hreaped := (always_reachable hb m).signalled.reaped (WaitPc.reaped_of_delivered hdelivered)
  refine (hworld.ends m hreaped .stdout).bind (fun k hk hout => ?_)
  have hreaped' := waitStatus_stable.le hk hreaped
  refine (hworld.ends k hreaped' .stderr).mono (fun j hj herr => ?_)
  refine ⟨waitStatus_stable.le hj hreaped', fun stream => ?_⟩
  cases stream with
  | stdout => exact (fin_stable .stdout).le hj hout
  | stderr => exact herr

end JobBehavior

/-- A job that is cancelled, or whose command has a timeout, comes to its end though its
child never exits by itself: it is enough that neither of its tasks is passed over for ever,
nor the driver kept waiting for its permit, that time passes, that a process that was sent
SIGKILL is reaped, and that the pipes of a child that was reaped end. -/
theorem stopped_job_returns {cfg : Config} (b : Behavior (Sys.step cfg))
    (hstart : b.state 0 = Sys.init cfg) (hdriver : b.Just Label.ofDriver)
    (hwait : b.Just Label.ofWait) (hworld : JobBehavior.Obliging b.stuttered)
    (hstops : cfg.spec.timeout.isSome ∨ ∃ n, (b.state n).token = true) :
    ∃ outcome n, (∀ m, n ≤ m → (b.state m).Settled outcome) ∧
      ((∀ m, Eventually (fun k => b.label k = .pollHandle) m) →
        Eventually (fun m => (b.state m).handleYields = some outcome) n) := by
  have hb : Sys.Reachable cfg (b.stuttered.state 0) := hstart ▸ Transition.Reachable.refl _
  refine settles_down b hstart ?_
  exact JobBehavior.returns hb hdriver.stuttered hwait.stuttered (fun n hpc =>
    JobBehavior.quits_of_stop hb hworld hstops hwait.stuttered hpc) 0

/-- The child ignores SIGTERM, and everything else but SIGKILL. -/
def stubbornRun : List Label :=
  drive 12 ++ [.wait .go {}, .cancelCheck, .cancelToken, .wait .cancel {}, .wait .go {},
    .wait .go {}, .wait .go {}, .wait .go {}, .elapse 5000000000, .wait .timer {}, .wait .go {},
    .exitLeader .kill (.signaled 9), .wait .go {}, .wait .go {}, .close .stdout .eof,
    .close .stderr .eof] ++ drive 18

theorem stubbornRun_runs :
    (Transition.run (Sys.step plainConfig) (Sys.init plainConfig) stubbornRun).isSome = true := by
  decide

def stubbornEnd : Sys := Transition.endOf _ _ stubbornRun stubbornRun_runs

/-- From the end of the run on nothing happens but that time passes. -/
def stubbornLater (k : ℕ) : Sys := { stubbornEnd with instant := stubbornEnd.instant + k }

def stubbornAfter : Behavior (Sys.step plainConfig) where
  state := stubbornLater
  label _ := .elapse 1
  next _ := rfl

theorem stopped_job_returns_stubborn : ∃ b : Behavior (Sys.step plainConfig),
    b.state 0 = Sys.init plainConfig ∧
    ∃ outcome n, ∀ m, n ≤ m → (b.state m).Settled outcome := by
  obtain ⟨b, hstart, -, hend⟩ := stubbornAfter.exists_prepended
    (Transition.run_endOf _ _ stubbornRun_runs)
  have hlater : ∀ k, b.state (stubbornRun.length + k) = stubbornLater k := fun k => (hend k).1
  have hsoon : ∀ P : Sys → Prop, (∀ k, P (stubbornLater k)) →
      ∀ n, Eventually (fun m => P (b.state m)) n := by
    intro P hP n
    refine ⟨stubbornRun.length + n, Nat.le_add_left n _, ?_⟩
    change P (b.state (stubbornRun.length + n))
    rw [hlater]
    exact hP n
  have hnever : ∀ A : Label → Prop,
      (∀ k, ¬Enabled (Sys.step plainConfig) A (stubbornLater k)) → b.Just A := by
    intro A hA
    refine (Behavior.compassionate_of_never (n := stubbornRun.length) (fun m hm => ?_)).just
    obtain ⟨k, rfl⟩ := Nat.exists_eq_add_of_le hm
    exact (hlater k).symm ▸ hA k
  have hreturned : stubbornEnd.ctl = .returned := by rfl
  have hdelivered : stubbornEnd.wait.pc.delivered = true := by decide
  have hreaped : stubbornEnd.group.waitStatus.isSome = true := by decide
  have hended : ∀ stream, (stubbornEnd.pipe stream).fin.isSome = true := by
    intro stream
    cases stream <;> decide
  have htoken : stubbornEnd.token = true := by decide
  have hworld : JobBehavior.Obliging b.stuttered := by
    refine ⟨fun d n => ⟨stubbornRun.length + (n + d), by omega, ?_⟩,
      fun n _ => hsoon (fun s => s.group.waitStatus.isSome) (fun _ => hreaped) n,
      fun n _ stream => hsoon (fun s => (s.pipe stream).fin.isSome) (fun _ => ?_) n⟩
    · change d ≤ (b.state (stubbornRun.length + (n + d))).instant
      rw [hlater]
      exact (Nat.le_add_left d n).trans (Nat.le_add_left (n + d) stubbornEnd.instant)
    · cases stream with
      | stdout => exact hended .stdout
      | stderr => exact hended .stderr
  obtain ⟨outcome, n, hsettled, -⟩ := stopped_job_returns b hstart
    (hnever _ (fun k => Sys.idle_of_returned (s := stubbornLater k) hreturned))
    (hnever _ (fun k => Sys.idle_of_delivered (s := stubbornLater k) hdelivered)) hworld
    (Or.inr ⟨stubbornRun.length + 0, by rw [hlater]; exact htoken⟩)
  exact ⟨b, hstart, outcome, n, hsettled⟩

end Execra
