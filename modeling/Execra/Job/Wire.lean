import Execra.Job.Tasks

/-!
The event stream of a job, into which two tasks send. The driver's events are
in the lifecycle by themselves; the one event of the wait task, `Cancelled`,
falls between `JobStarted` and `Exited`, because the task is spawned after the
one and hands over its outcome, without which the other is not sent, as its
last act.
-/

namespace Execra

/-- The wait task has sent `Cancelled`. -/
def WaitPc.cancelSent : WaitPc → Bool
  | .cancelInsert _ | .terminate | .grace _ => true
  | .kill branch | .reap branch | .deliver _ branch | .finished branch => branch = .cancelled
  | .unspawned | .spawned | .select | .cancelStamp | .cancelSend _ => false

theorem Sys.act_log (cfg : Config) (w : Oracle) (o : Op) (s : Sys) :
    let t := (s.act cfg w o).2
    (t.log = s.log ∧ t.sent = s.sent) ∨
      ∃ e, t.log = s.log ++ [e] ∧ t.sent = s.sent ++ [e] := by
  cases o with
  | openRawFile | spawnChild | writeRaw => simp only [act]; split <;> exact Or.inl ⟨rfl, rfl⟩
  | upsertSnapshot =>
      simp only [act, upsertSnapshot]
      split
      · exact Or.inl ⟨rfl, rfl⟩
      · split <;> exact Or.inl ⟨rfl, rfl⟩
  | send event => exact Or.inr ⟨event, rfl, rfl⟩
  | _ => exact Or.inl ⟨rfl, rfl⟩

/-- What a step adds to the stream: nothing, an event of the driver, or the
wait task's `Cancelled`. -/
inductive Sys.LogStep (cfg : Config) (s t : Sys) : Prop where
  | silent (hlog : t.log = s.log) (hsent : t.sent = s.sent)
      (hpc : t.wait.pc.cancelSent = s.wait.pc.cancelSent)
  | driver (e) (hlog : t.log = s.log ++ [e]) (hsent : t.sent = s.sent ++ [e])
      (hpc : t.wait.pc.cancelSent = s.wait.pc.cancelSent)
  | cancelled (time) (hlog : t.log = s.log ++ [cancelledEvent cfg time])
      (hsent : t.sent = s.sent) (hbefore : s.wait.pc.cancelSent = false)
      (hafter : t.wait.pc.cancelSent = true)
      (hlive : s.wait.pc ≠ .unspawned ∧ s.wait.pc.delivered = false)

private theorem Sys.DriverMove.log_step {cfg : Config} {s t : Sys}
    (hs : Sys.Reachable cfg s) (ht : Sys.Reachable cfg t) (h : s.DriverMove cfg t) :
    s.LogStep cfg t := by
  have hpc : t.wait.pc.cancelSent = s.wait.pc.cancelSent := h.wait_same hs ht _ rfl
  cases h with
  | op w o k hctl =>
      rcases s.act_log cfg w o with ⟨hlog, hsent⟩ | ⟨e, hlog, hsent⟩
      · exact .silent hlog hsent hpc
      · exact .driver e hlog hsent hpc
  | _ => exact .silent rfl rfl hpc

private theorem Sys.WaitMove.log_step {cfg : Config} {s t : Sys} (h : s.WaitMove cfg t) :
    s.LogStep cfg t := by
  cases h with
  | send time hpc =>
      exact .cancelled time rfl rfl (by rw [hpc]; rfl) rfl (by rw [hpc]; exact ⟨nofun, rfl⟩)
  | _ => exact .silent rfl rfl (by simp [WaitPc.cancelSent, Sys.waitAt, *])

theorem Sys.Move.log_step {cfg : Config} {s t : Sys} (hs : Sys.Reachable cfg s)
    (ht : Sys.Reachable cfg t) (h : s.Move cfg t) : s.LogStep cfg t := by
  cases h with
  | driver h => exact h.log_step hs ht
  | wait h => exact h.log_step
  | world h => exact .silent h.tasks.log h.tasks.sent (by rw [h.tasks.wait])

/-- The stage as the driver alone sees it. -/
def Life.forget : Life → Life
  | .started _ => .started false
  | life => life

/-- An event that is not `Cancelled` is read the same with or without the
`Cancelled` events before it. -/
theorem Life.step_of_forget {life next : Life} {body : EventBody}
    (hown : body.isCancelled = false) (h : life.forget.step body = some next) :
    ∃ next', life.step body = some next' ∧ next'.forget = next ∧
      (next' = .started true → life = .started true) := by
  cases life with
  | started c =>
      cases Moves.of_step h with
      | cancelled => cases hown
      | exited _ code => exact ⟨.exited, (Moves.exited c code).step, rfl, nofun⟩
      | running _ hout => exact ⟨.started c, (Moves.running c hout).step, rfl, id⟩
  | fresh | created | exited | failed | finalized =>
      cases Moves.of_step h <;> exact ⟨_, h, rfl, nofun⟩

/-- While a wait task is at work the driver is between `JobStarted` and
`Exited`. -/
theorem Sys.Reachable.started_of_waiting {cfg : Config} {s : Sys}
    (hs : Sys.Reachable cfg s) (hspawned : s.wait.pc ≠ .unspawned)
    (hlive : s.wait.pc.delivered = false) : lifeOf s.sent = some (.started false) := by
  have hexit : exitIn s.selected = none := by
    have hchannel := hs.channel
    unfold Sys.Channel at hchannel
    split at hchannel <;> simp_all
  have htasks : s.waitTasks ≠ [] := by
    cases hs.tasked with
    | unspawned _ hinit => rw [hinit] at hspawned; exact absurd rfl hspawned
    | spawned pid _ hone => simp [hone]
  obtain ⟨life, hrun, hagrees⟩ := hs.inLifecycle
  cases life with
  | started c => rw [hagrees.1] at hrun; exact hrun
  | exited => simp [Ledger.Agrees, Sys.ledger, hexit] at hagrees
  | finalized => simp [Ledger.Agrees, Sys.ledger, LoopOver, hexit] at hagrees
  | _ => exact absurd hagrees htasks

/-- The stream of a job, against what its two senders have sent. -/
structure Sys.Merged (s : Sys) : Prop where
  life : ∃ life, lifeOf s.log = some life ∧ lifeOf s.sent = some life.forget ∧
    (life = .started true → s.wait.pc.cancelSent = true)
  count : s.log.countP (fun e => e.body.isCancelled) = s.wait.pc.cancelSent.toNat
  own : s.sent = s.log.filter (fun e => !e.body.isCancelled)

theorem Sys.Move.log_grows {cfg : Config} {s t : Sys} (hs : Sys.Reachable cfg s)
    (ht : Sys.Reachable cfg t) (h : s.Move cfg t) : s.log <+: t.log := by
  cases h.log_step hs ht with
  | silent hlog _ _ => rw [hlog]
  | driver e hlog _ _ => exact ⟨[e], hlog.symm⟩
  | cancelled time hlog _ _ _ _ => exact ⟨_, hlog.symm⟩

/-- The driver never sends `Cancelled`. -/
private theorem not_cancelled {d : Ledger} {life : Life} {log : List Event} {e : Event}
    (hd : d.InLifecycle) (hsent : d.sent = log ++ [e])
    (hlife : lifeOf log = some (life.forget)) :
    e.body.isCancelled = false ∧ ∃ next, life.forget.step e.body = some next ∧
      lifeOf d.sent = some next := by
  obtain ⟨next, hrun, hagrees⟩ := hd
  have hrun' := hrun
  rw [hsent] at hrun'
  obtain ⟨mid, hmid, hstep⟩ := (Transition.run_snoc_iff _ _ _ _).mp hrun'
  have hsame : mid = life.forget := Option.some.inj (hmid.symm.trans hlife)
  subst hsame
  refine ⟨?_, next, hstep, hrun⟩
  cases hbody : e.body with
  | cancelled =>
      rw [hbody] at hstep
      have hnext : next = .started true := by
        generalize life.forget = before at hstep
        cases Life.Moves.of_step hstep with
        | cancelled => rfl
        | running _ hout | drained hout => cases hout
      subst hnext
      cases hagrees.1
  | _ => rfl

theorem Sys.Reachable.merged {cfg : Config} {s : Sys} (hs : Sys.Reachable cfg s) :
    s.Merged := by
  refine hs.invariant (I := Sys.Merged) ⟨⟨.fresh, rfl, rfl, nofun⟩, rfl, rfl⟩ ?_
  rintro s t hs ht ⟨⟨life, hrun, hown, hstarted⟩, hcount, hsent⟩ hmove
  cases hmove.log_step hs ht with
  | silent hlog hsame hpc =>
      rw [← hpc] at hstarted hcount
      exact ⟨⟨life, hlog ▸ hrun, hsame ▸ hown, hstarted⟩, hlog ▸ hcount,
        hlog ▸ hsame ▸ hsent⟩
  | driver e hlog happ hpc =>
      obtain ⟨hbody, next, hstep, hnext⟩ := not_cancelled ht.inLifecycle happ hown
      obtain ⟨next', hstep', hforget, hkeep⟩ := Life.step_of_forget hbody hstep
      refine ⟨⟨next', ?_, ?_, fun h => hpc ▸ hstarted (hkeep h)⟩, ?_, ?_⟩
      · rw [hlog]; exact lifeOf_append hrun hstep'
      · rw [hforget]; exact hnext
      · rw [hlog, hpc, List.countP_append, hcount]; simp [hbody]
      · rw [hlog, happ, hsent, List.filter_append]; simp [hbody]
  | cancelled time hlog hsame hbefore hafter hlive =>
      have hdriver := hs.started_of_waiting hlive.1 hlive.2
      have hlife : life = .started false := by
        rw [hown] at hdriver
        cases life with
        | started c =>
            cases c
            · rfl
            · rw [hstarted rfl] at hbefore; cases hbefore
        | _ => simp [Life.forget] at hdriver
      subst hlife
      refine ⟨⟨.started true, ?_, hsame ▸ hown, fun _ => hafter⟩, ?_, ?_⟩
      · rw [hlog]; exact lifeOf_append hrun rfl
      · rw [hlog, hafter, List.countP_append, hcount, hbefore]; rfl
      · rw [hlog, hsame, hsent, List.filter_append]; simp [cancelledEvent, EventBody.isCancelled]

/-- The events of the driver are those on the wire that are not `Cancelled`. -/
theorem Sys.Reachable.mem_sent_iff {cfg : Config} {s : Sys} (hs : Sys.Reachable cfg s)
    {e : Event} : e ∈ s.sent ↔ e ∈ s.log ∧ e.body.isCancelled = false := by
  rw [hs.merged.own, List.mem_filter, Bool.not_eq_true']

/-- Nothing can be sent once the job has ended. -/
private theorem Life.step_ended {life : Life} (h : life = .failed ∨ life = .finalized)
    (body : EventBody) : life.step body = none := by
  rcases h with rfl | rfl <;> cases body <;> rfl

/-- A `Finalized` in a log of the language is its last event. -/
theorem finalized_last {life : Life} {before after : List Event} {e : Event}
    {outcome : Outcome} (h : lifeOf (before ++ e :: after) = some life)
    (hbody : e.body = .finalized outcome) : after = [] := by
  unfold lifeOf at h
  rw [Transition.run_append, Option.bind_eq_some_iff] at h
  obtain ⟨mid, -, hrest⟩ := h
  rw [Transition.run_cons, Option.bind_eq_some_iff] at hrest
  obtain ⟨next, hstep, hafter⟩ := hrest
  have hended : next = .failed ∨ next = .finalized := by
    rw [hbody] at hstep
    cases Life.Moves.of_step hstep with
    | failed => exact Or.inl rfl
    | finalized => exact Or.inr rfl
    | running _ hout | drained hout => cases hout
  cases after with
  | nil => rfl
  | cons e' rest =>
      rw [Transition.run_cons, Life.step_ended hended] at hafter
      cases hafter

/-- A log with both `JobStarted` and `Finalized` is a whole job of the second
shape. -/
theorem Life.eq_finalized {life : Life} {w : List EventBody} {pid : Nat} {outcome : Outcome}
    (h : life.Shape w) (hstarted : .jobStarted pid ∈ w) (hfinal : .finalized outcome ∈ w) :
    life = .finalized := by
  cases life with
  | finalized => rfl
  | fresh => subst h; cases hstarted
  | created => obtain ⟨command, rfl⟩ := h; simp at hstarted
  | failed => obtain ⟨command, outcome, rfl⟩ := h; simp at hstarted
  | started c =>
      obtain ⟨command, pid', before, rfl, -, hinner⟩ := h
      have hmem : .finalized outcome ∈ before := by simpa using hfinal
      cases hinner _ hmem rfl
  | exited =>
      obtain ⟨command, pid', middle, rfl, before, code, after, rfl, -, hbefore, hafter⟩ := h
      have hmem : .finalized outcome ∈ before ∨ .finalized outcome ∈ after := by
        simpa using hfinal
      rcases hmem with hmem | hmem
      · cases hbefore _ hmem rfl
      · cases hafter _ hmem

/-- The events of a job are, at every moment, the beginning of a job of one of
the two shapes. A started job that is finalized has read both pipes to their
end and has received the status of its child, and nothing is sent after
`Finalized`. -/
theorem lifecycle_language {cfg : Config} {s : Sys} (hs : Sys.Reachable cfg s) :
    (∃ word, LifecycleWord word ∧ s.log.map Event.body <+: word) ∧
    (∀ pid outcome, .jobStarted pid ∈ s.log.map Event.body →
      .finalized outcome ∈ s.log.map Event.body →
      (∀ stream, (s.pipe stream).Over) ∧ ∃ received, s.exitRx = .taken received) ∧
    (∀ before e after outcome, s.log = before ++ e :: after →
      e.body = .finalized outcome → after = []) := by
  obtain ⟨life, hrun, hown, -⟩ := hs.merged.life
  have hshape := Life.shape_of_run hrun
  refine ⟨Life.prefix_word hshape, ?_, ?_⟩
  · intro pid outcome hstarted hfinal
    have hlife := Life.eq_finalized hshape hstarted hfinal
    subst hlife
    obtain ⟨life', hrun', hagrees⟩ := hs.inLifecycle
    have hsame : life' = .finalized := Option.some.inj (hrun'.symm.trans hown)
    subst hsame
    obtain ⟨-, hends, hexit⟩ := hagrees
    obtain ⟨received, hreceived⟩ := Option.isSome_iff_exists.mp hexit
    exact ⟨fun stream => hs.pipe_over stream (hends stream),
      received, (hs.delivered_of_exit hreceived).1⟩
  · intro before e after outcome hlog hbody
    rw [hlog] at hrun
    exact finalized_last hrun hbody

/-- The child prints one line and leaves. -/
def oneLineRun : List Label :=
  drive 12 ++ [.arrive .stdout [0x68, 0x69, newline]] ++ drive 4 ++ leaveQuietly ++ drive 18

theorem oneLineRun_runs :
    (Transition.run (Sys.step plainConfig) (Sys.init plainConfig) oneLineRun).isSome = true := by
  decide

def oneLineEnd : Sys := Transition.endOf _ _ oneLineRun oneLineRun_runs

theorem oneLineEnd_log : oneLineEnd.log.map Event.body =
    [.jobCreated { program := "tool" }, .jobStarted 1, .outputAppended .stdout "hi",
      .exited { code := some 0, signal := none }, .finalized (.succeeded none [])] := by
  decide

theorem oneLineEnd_reachable : Sys.Reachable plainConfig oneLineEnd :=
  Transition.reachable_endOf _ _ oneLineRun_runs

theorem lifecycle_language_oneLine :
    (∃ word, LifecycleWord word ∧ oneLineEnd.log.map Event.body <+: word) ∧
    ((∀ stream, (oneLineEnd.pipe stream).Over) ∧
      ∃ received, oneLineEnd.exitRx = .taken received) := by
  have h := lifecycle_language oneLineEnd_reachable
  refine ⟨h.1, h.2.1 1 (.succeeded none []) ?_ ?_⟩ <;> rw [oneLineEnd_log] <;> decide

end Execra
