import Execra.Job.Agreement
import Execra.Job.History
import Execra.Job.Liveness

/-!
What a job files in its history. The driver inserts each of its events right after it has
sent it, and so does the wait task with its one; nobody else inserts events of the job. So
each of the two files what it sends and in that order, whatever the other does in between,
and only the place of `Cancelled` among the events of the driver may be another than on
the wire.
-/

namespace Execra

/-- The event that a step inserts, if there is one. -/
def Sys.inserted (cfg : Config) (s : Sys) : Label → List Event
  | .driver _ => s.ctl.inserting.toList
  | .wait _ _ => (s.wait.pc.inserting cfg).toList
  | _ => []

/-- What a step does to the store. -/
inductive Sys.Writes (cfg : Config) (s : Sys) : Label → Option Store → Prop where
  | keeps (l) (hquiet : s.inserted cfg l = []) : Writes cfg s l s.store
  | upserts (w) (hquiet : s.ctl.inserting = none) :
      Writes cfg s (.driver w) (s.upsertSnapshot w).store
  | driver (w e) (he : s.ctl.inserting = some e) :
      Writes cfg s (.driver w) (s.insertEvent e w).store
  | wait (c w e) (he : s.wait.pc.inserting cfg = some e) :
      Writes cfg s (.wait c w) (s.insertEvent e w).store

section Steps

variable {cfg : Config} {s t : Sys} {l : Label}

theorem Sys.WorldMove.inserts_nothing (h : s.WorldMove l t) : s.inserted cfg l = [] := by
  cases h with
  | group l g hl => cases l <;> first | rfl | cases hl
  | _ => rfl

theorem Sys.step_writes (hstep : s.step cfg l = some t) : s.Writes cfg l t.store := by
  cases Sys.step_by hstep with
  | driver w hdriver =>
      rcases Sys.driverStep_cases hdriver with ⟨o, k, hctl, rfl⟩ | ⟨v, hctl, hmove⟩
      · have hkeeps : s.ctl.inserting = none → (s.act cfg w o).2.store = s.store →
            s.Writes cfg (.driver w) (s.act cfg w o).2.store := by
          intro hnone hsame
          rw [hsame]
          apply Sys.Writes.keeps
          rw [inserted, hnone, Option.toList_none]
        cases o with
        | insertEvent e => exact .driver w e (by rw [hctl]; rfl)
        | upsertSnapshot => exact .upserts w (by rw [hctl]; rfl)
        | openRawFile | spawnChild | writeRaw =>
            apply hkeeps
            · rw [hctl]; rfl
            · simp only [act]; split <;> rfl
        | _ => exact hkeeps (by rw [hctl]; rfl) rfl
      · have hsame : t.store = s.store := by
          cases hmove with
          | op w' o k hctl' => rw [hctl] at hctl'; cases hctl'
          | _ => rfl
        rw [hsame]
        apply Sys.Writes.keeps
        rw [inserted, hctl]
        rfl
  | wait c w hwait =>
      cases hwaits : s.wait.pc.inserting cfg with
      | some e =>
          obtain ⟨time, hpc, rfl⟩ := WaitPc.eq_of_inserting hwaits
          rw [Sys.waitStep_insert hpc hwait]
          exact .wait c w _ hwaits
      | none =>
          have hquiet : s.inserted cfg (.wait c w) = [] := by
            rw [inserted, hwaits, Option.toList_none]
          rcases (Sys.waitStep_move hwait).history with
            ⟨time, hpc⟩ | ⟨e, -, -, hsame, -⟩ | ⟨-, hsame, -⟩
          · rw [hpc] at hwaits
            cases hwaits
          · rw [hsame]
            exact .keeps _ hquiet
          · rw [hsame]
            exact .keeps _ hquiet
  | world l hworld =>
      rw [hworld.tasks.store]
      exact .keeps l hworld.inserts_nothing

end Steps

/-- What the two tasks have filed of what they have sent, given the events that are
stored for the job. -/
structure Sys.Inserted (cfg : Config) (s : Sys) (stored : List Event) : Prop where
  own : stored.filter (fun e => !e.body.isCancelled) ++ s.ctl.inserting.toList =
    persisted s.sent
  cancelled : stored.filter (fun e => e.body.isCancelled) ++
    (s.wait.pc.inserting cfg).toList = s.log.filter (fun e => e.body.isCancelled)
  waits : ∀ e ∈ s.ctl.inserting, e.body.isOutput = false ∧ e.job = cfg.id

section Filed

variable {cfg : Config} {s t : Sys} {l : Label} {stored : List Event}

theorem Sys.Inserted.inserted (h : s.Inserted cfg stored) (l : Label) :
    ∀ e ∈ s.inserted cfg l, e.body.isOutput = false ∧ e.job = cfg.id := by
  intro e he
  cases l with
  | driver w => exact h.waits e (Option.mem_toList.mp he)
  | wait c w =>
      obtain ⟨time, -, rfl⟩ := WaitPc.eq_of_inserting (Option.mem_toList.mp he)
      exact ⟨rfl, rfl⟩
  | _ => exact absurd he List.not_mem_nil

theorem Sys.inserted_init : (Sys.init cfg).Inserted cfg [] := by
  refine ⟨rfl, rfl, fun e he => ?_⟩
  have hnone : (Sys.init cfg).ctl.inserting = none := rfl
  rw [hnone] at he
  cases he

/-- What was sent and is to be stored is on file, or waits. -/
theorem Sys.Inserted.sent (h : s.Inserted cfg stored) {e : Event}
    (he : s.ctl.inserting = some e) : e ∈ s.sent := by
  have hmem : e ∈ persisted s.sent := by
    rw [← h.own, he]
    simp
  exact List.mem_of_mem_filter hmem

/-- What waits is filed in its turn, and what is sent waits. -/
theorem Sys.Inserted.step (hs : Sys.Reachable cfg s)
    (h : s.Inserted cfg stored) (hstep : s.step cfg l = some t) :
    t.Inserted cfg (stored ++ s.inserted cfg l) := by
  have ht : Sys.Reachable cfg t := hs.extend hstep
  have hsends : ∀ e, t.sent = s.sent ++ [e] → e.body.isCancelled = false := by
    intro e hsent
    have hmem : e ∈ t.sent := by rw [hsent]; simp
    exact (ht.mem_sent_iff.mp hmem).2
  have hfiled : ∀ e, s.ctl.inserting = some e → e.body.isCancelled = false :=
    fun e he => (hs.mem_sent_iff.mp (h.sent he)).2
  obtain ⟨hown, hcancelled, hwaits⟩ := h
  cases hs.posts hstep with
  | sends w e hkept hjob hbefore hafter hlog hsent hpc =>
      have hbody := hsends e hsent
      rw [hbefore] at hown
      simp only [Sys.inserted, hbefore, Option.toList_none, List.append_nil] at hown ⊢
      refine ⟨?_, ?_, ?_⟩
      · rw [hafter, hsent, persisted_append, hkept, hown]
        rfl
      · rw [hpc, hlog, List.filter_append, hcancelled]
        simp [hbody]
      · rw [hafter]
        rintro _ ⟨⟩
        exact ⟨hkept, hjob⟩
  | shows w e hout hbefore hafter hlog hsent hpc =>
      have hbody := hsends e hsent
      simp only [Sys.inserted, hbefore, Option.toList_none, List.append_nil] at hown ⊢
      refine ⟨?_, ?_, ?_⟩
      · rw [hafter, hsent, persisted_append, hout, hown]
        simp
      · rw [hpc, hlog, List.filter_append, hcancelled]
        simp [hbody]
      · rw [hafter]
        rintro _ ⟨⟩
  | inserts w e hbefore hafter hlog hsent hpc =>
      have hbody := hfiled e hbefore
      rw [hbefore] at hown
      simp only [Sys.inserted, hbefore, Option.toList_some] at hown ⊢
      refine ⟨?_, ?_, ?_⟩
      · rw [hafter, hsent, ← hown]
        simp [hbody]
      · rw [hpc, hlog, List.filter_append, ← hcancelled]
        simp [hbody]
      · rw [hafter]
        rintro _ ⟨⟩
  | quiet w hbefore hafter hlog hsent hpc =>
      simp only [Sys.inserted, hbefore, Option.toList_none, List.append_nil] at hown ⊢
      refine ⟨?_, ?_, ?_⟩
      · rw [hafter, hsent, hown]
        simp
      · rw [hpc, hlog, hcancelled]
      · rw [hafter]
        rintro _ ⟨⟩
  | cancels c w e hlog hsent hctl hbefore hafter =>
      obtain ⟨time, -, rfl⟩ := WaitPc.eq_of_inserting hafter
      rw [hbefore, Option.toList_none, List.append_nil] at hcancelled
      simp only [Sys.inserted, hbefore, Option.toList_none, List.append_nil]
      refine ⟨?_, ?_, ?_⟩
      · rw [hctl, hsent, hown]
      · rw [hafter, hlog, List.filter_append, hcancelled]
        rfl
      · rw [hctl]
        exact hwaits
  | files c w e hlog hsent hctl hbefore hafter =>
      obtain ⟨time, -, rfl⟩ := WaitPc.eq_of_inserting hbefore
      simp only [Sys.inserted, hbefore, Option.toList_some] at hcancelled ⊢
      refine ⟨?_, ?_, ?_⟩
      · rw [hctl, hsent, List.filter_append, ← hown]
        simp [cancelledEvent, EventBody.isCancelled]
      · rw [hafter, hlog, List.filter_append, ← hcancelled]
        simp [cancelledEvent, EventBody.isCancelled]
      · rw [hctl]
        exact hwaits
  | waits c w hlog hsent hctl hbefore hafter =>
      simp only [Sys.inserted, hbefore, Option.toList_none, List.append_nil] at hcancelled ⊢
      refine ⟨?_, ?_, ?_⟩
      · rw [hctl, hsent, hown]
      · rw [hafter, hlog, ← hcancelled]
        simp
      · rw [hctl]
        exact hwaits
  | world l hworld =>
      have hkept := hworld.tasks
      rw [hworld.inserts_nothing, List.append_nil]
      exact ⟨by rw [hkept.ctl, hkept.sent, hown], by rw [hkept.wait, hkept.log, hcancelled],
        by rw [hkept.ctl]; exact hwaits⟩

/-- Whether its inserts succeed or not, a job has tried to file what it has sent. -/
theorem Sys.Reachable.inserts_filed (hs : Sys.Reachable cfg s) : ∃ tried, s.Inserted cfg tried := by
  obtain ⟨ls, hrun⟩ := hs
  refine Sys.run_induction (P := fun _ _ => True) (fun _ s => ∃ tried, s.Inserted cfg tried)
    (Transition.stepsMeet_of_forall (fun _ _ => trivial) _ _) hrun ⟨[], Sys.inserted_init⟩ ?_
  rintro done s l t hdone ⟨tried, h⟩ - hstep
  exact ⟨_, h.step ⟨done, hdone⟩ hstep⟩

/-- The events of the driver that are to be stored. -/
theorem Sys.Reachable.persisted_sent (hs : Sys.Reachable cfg s) : persisted s.sent =
    (persisted s.log).filter (fun e => !e.body.isCancelled) := by
  rw [hs.merged.own, persisted, persisted, List.filter_comm]

/-- The event of the wait task is to be stored. -/
theorem cancelled_persisted (log : List Event) :
    (persisted log).filter (fun e => e.body.isCancelled) =
      log.filter (fun e => e.body.isCancelled) := by
  rw [persisted, List.filter_filter]
  apply List.filter_congr
  intro e _
  cases e.body <;> rfl

/-- On file is what each of the two tasks has sent, in its order, up to some point. -/
structure FiledOf (stored sent : List Event) : Prop where
  own : stored.filter (fun e => !e.body.isCancelled) <+:
    sent.filter (fun e => !e.body.isCancelled)
  cancelled : stored.filter (fun e => e.body.isCancelled) <+:
    sent.filter (fun e => e.body.isCancelled)

theorem Sys.Inserted.filedOf (hs : Sys.Reachable cfg s) (h : s.Inserted cfg stored) :
    FiledOf stored (persisted s.log) := by
  constructor
  · exact ⟨_, h.own.trans hs.persisted_sent⟩
  · exact ⟨_, h.cancelled.trans (cancelled_persisted s.log).symm⟩

/-- On file is all that each of the two tasks has sent, in its order. -/
structure FiledAll (stored sent : List Event) : Prop where
  own : stored.filter (fun e => !e.body.isCancelled) = sent.filter (fun e => !e.body.isCancelled)
  cancelled : stored.filter (fun e => e.body.isCancelled) =
    sent.filter (fun e => e.body.isCancelled)

theorem FiledAll.perm {sent : List Event} (h : FiledAll stored sent) : stored.Perm sent := by
  have hstored := List.filter_append_perm (fun e => e.body.isCancelled) stored
  rw [h.own, h.cancelled] at hstored
  exact hstored.symm.trans (List.filter_append_perm _ _)

/-- Whatever the driver alone sends is on file as it was sent. -/
theorem FiledAll.filter {log : List Event} (h : FiledAll stored (persisted log)) {p : Event → Bool}
    (hp : ∀ e, p e = true → e.body.isCancelled = false ∧ e.body.isOutput = false) :
    stored.filter p = log.filter p := by
  have hown : ∀ events : List Event,
      (events.filter (fun e => !e.body.isCancelled)).filter p = events.filter p := by
    intro events
    rw [List.filter_filter]
    refine List.filter_congr (fun e _ => ?_)
    cases hpe : p e with
    | false => rfl
    | true => simp [(hp e hpe).1]
  have hkept : (persisted log).filter p = log.filter p := by
    rw [persisted, List.filter_filter]
    refine List.filter_congr (fun e _ => ?_)
    cases hpe : p e with
    | false => rfl
    | true => simp [(hp e hpe).2]
  rw [← hown stored, h.own, hown, hkept]

/-- When nothing waits, everything is on file. -/
theorem Sys.Inserted.complete (hs : Sys.Reachable cfg s) (h : s.Inserted cfg stored)
    (hrest : s.AtRest cfg) : FiledAll stored (persisted s.log) := by
  have hown := h.own
  have hcancelled := h.cancelled
  rw [hrest.1, Option.toList_none, List.append_nil, hs.persisted_sent] at hown
  rw [hrest.2, Option.toList_none, List.append_nil, ← cancelled_persisted s.log] at hcancelled
  exact ⟨hown, hcancelled⟩

end Filed

section Rest

variable {cfg : Config} {s t : Sys} {l : Label}

/-- Nothing is sent once the outcome was announced. -/
theorem Sys.Reachable.silent_of_answered (hs : Sys.Reachable cfg s) (ht : Sys.Reachable cfg t)
    (hanswered : s.outcomeRx.value.isSome) {e : Event} : t.log ≠ s.log ++ [e] := by
  intro hlog
  obtain ⟨outcome, hagreed⟩ := hs.readable.2 (Or.inr hanswered)
  obtain ⟨final, hfinal, hbody⟩ := hagreed.sent
  obtain ⟨before, after, hsplit⟩ := List.append_of_mem (hs.mem_sent_iff.mp hfinal).1
  obtain ⟨life, hlife, -⟩ := ht.merged.life
  rw [hlog, hsplit, List.append_assoc, List.cons_append] at hlife
  have hnothing := finalized_last hlife hbody
  exact List.append_ne_nil_of_right_ne_nil _ (List.cons_ne_nil _ _) hnothing

/-- A step that sends does not answer. -/
theorem Sys.answered_of_sends {w : Oracle} {e : Event} (hsent : t.sent = s.sent ++ [e])
    (hstep : s.step cfg (.driver w) = some t) : t.outcomeRx = s.outcomeRx := by
  have hgrown : t.sent ≠ s.sent := by
    rw [hsent]
    simp
  rcases Sys.driverStep_cases hstep with ⟨o, k, hctl, rfl⟩ | ⟨v, hctl, hmove⟩
  · cases o with
    | send event => rfl
    | insertEvent event => exact absurd rfl hgrown
    | _ => exact absurd (Sys.act_sent cfg w rfl s) hgrown
  · cases hmove with
    | op w' o k hctl' => rw [hctl] at hctl'; cases hctl'
    | _ => rfl

/-- The driver answers when it has filed all it has sent. -/
theorem Sys.Reachable.inserting_of_answered (hs : Sys.Reachable cfg s)
    (hanswered : s.outcomeRx.value.isSome) : s.ctl.inserting = none := by
  obtain ⟨ls, hrun⟩ := hs
  refine Sys.run_induction (P := fun _ _ => True)
    (fun _ s => s.outcomeRx.value.isSome → s.ctl.inserting = none)
    (Transition.stepsMeet_of_forall (fun _ _ => trivial) _ _) hrun (fun _ => rfl) ?_ hanswered
  intro done s l t hdone hI _ hstep hanswered
  have hs : Sys.Reachable cfg s := ⟨done, hdone⟩
  have haside : t.ctl = s.ctl → t.ledger cfg = s.ledger cfg → t.ctl.inserting = none := by
    intro hctl hledger
    have hsame : t.outcomeRx.value = s.outcomeRx.value := congrArg Ledger.replied hledger
    rw [hctl]
    exact hI (hsame ▸ hanswered)
  cases hs.posts hstep with
  | sends w e hkept hjob hbefore hafter hlog hsent =>
      rw [Sys.answered_of_sends hsent hstep] at hanswered
      exact absurd hlog (hs.silent_of_answered (hs.extend hstep) hanswered)
  | shows w e hout hbefore hafter => exact hafter
  | inserts w e hbefore hafter => exact hafter
  | quiet w hbefore hafter => exact hafter
  | cancels c w e hlog hsent hctl => exact haside hctl (Sys.waitStep_move hstep).frame.2.2
  | files c w e hlog hsent hctl => exact haside hctl (Sys.waitStep_move hstep).frame.2.2
  | waits c w hlog hsent hctl => exact haside hctl (Sys.waitStep_move hstep).frame.2.2
  | world l hworld => exact haside hworld.tasks.ctl (hworld.frame cfg).2.2

/-- A job whose handle is answered has filed all it has sent. -/
theorem Sys.Reachable.rests_of_answered (hs : Sys.Reachable cfg s)
    (hanswered : s.outcomeRx.value.isSome) : s.AtRest cfg := by
  refine ⟨hs.inserting_of_answered hanswered, ?_⟩
  obtain ⟨outcome, hanswer⟩ := Option.isSome_iff_exists.mp hanswered
  have houtcome := hs.outcome_of_answer hanswer
  cases hwaits : s.wait.pc.inserting cfg with
  | none => rfl
  | some e =>
      obtain ⟨time, hpc, -⟩ := WaitPc.eq_of_inserting hwaits
      have hspawned : s.wait.pc ≠ .unspawned := by rw [hpc]; exact WaitPc.noConfusion
      rcases hs.judged.1 outcome houtcome with ⟨hfailed, -⟩ | ⟨-, cancelled, state, hverdict, -⟩
      · have hnone : s.child = none := hs.judged.2.2 hfailed
        have hchild := hs.child_of_attended hspawned
        rw [hnone] at hchild
        cases hchild
      · have hread : s.verdict.isSome := by
          rw [show s.verdict = some cancelled from hverdict]
          rfl
        obtain ⟨branch, hfinished⟩ := hs.finished_of_verdict hread
        rw [hpc] at hfinished
        cases hfinished

end Rest

end Execra
