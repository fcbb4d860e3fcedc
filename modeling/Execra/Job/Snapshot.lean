import Execra.Job.Wire

/-!
The snapshot other tasks read. Every operation of the driver leaves a
consistent snapshot whose state has not moved back, and a finalized snapshot
is never written again. The outcome is written to the snapshot first, then to
the store, then broadcast, then sent to the handle, always the same value; so
whoever sees one of the last three finds the others agree.
-/

namespace Execra

open Program

/-- `Queued < Running < Exited < Finalized`; `Cancelled` is never written. -/
def JobState.rank : JobState → Nat
  | .queued => 0
  | .running => 1
  | .exited => 2
  | .finalized => 3
  | .cancelled => 4

/-- What holds of a snapshot whenever it can be read. -/
structure Job.Consistent (j : Job) : Prop where
  written : j.state ≠ .cancelled
  outcome : j.outcome.isSome ↔ j.state = .finalized
  exit : j.exit.isSome → j.state = .exited ∨ j.state = .finalized
  phase : j.state = .finalized → j.currentPhase = none

/-- A snapshot and a later one. -/
structure Job.Advances (j j' : Job) : Prop where
  forward : j.state.rank ≤ j'.state.rank
  final : j.state = .finalized → j' = j

theorem Job.Advances.refl (j : Job) : j.Advances j := ⟨le_rfl, fun _ => rfl⟩

theorem Job.Advances.trans {j₁ j₂ j₃ : Job} (h : j₁.Advances j₂) (h' : j₂.Advances j₃) :
    j₁.Advances j₃ := by
  refine ⟨h.forward.trans h'.forward, fun hfin => ?_⟩
  have hsame := h.final hfin
  rw [h'.final (by rw [hsame]; exact hfin), hsame]

/-- The outcome has been broadcast or sent to the handle. -/
def Ledger.Announced (d : Ledger) : Prop :=
  (∃ e ∈ d.sent, ∃ outcome, e.body = .finalized outcome) ∨ d.replied.isSome

/-- Every copy of the outcome is `outcome`, the one in the store as far as the
upserts have succeeded. -/
structure Ledger.Agreed (d : Ledger) (outcome : Outcome) : Prop where
  snapshot : d.snapshot.outcome = some outcome
  row : d.upsertsOk = true → ∀ found, d.row = some found →
    ∃ row, found = some row ∧ row.outcomeJson = some ⟨outcome⟩
  sent : ∃ e ∈ d.sent, e.body = .finalized outcome
  unique : ∀ e ∈ d.sent, ∀ other, e.body = .finalized other → other = outcome
  replied : ∀ other, d.replied = some other → other = outcome

/-- What holds of the ledger at every moment. -/
def Ledger.Readable (d : Ledger) : Prop :=
  d.snapshot.Consistent ∧ (d.Announced → ∃ outcome, d.Agreed outcome)

/-- A driver that has not finalized its job yet. -/
structure Ledger.Unfinished (d : Ledger) : Prop where
  consistent : d.snapshot.Consistent
  state : d.snapshot.state ≠ .finalized
  silent : ¬ d.Announced

theorem Ledger.Unfinished.readable {d : Ledger} (h : d.Unfinished) : d.Readable :=
  ⟨h.consistent, fun hsaid => absurd hsaid h.silent⟩

/-- What the rest of the job may rely on at every change of the ledger. -/
def Ledger.Keeps (d d' : Ledger) : Prop := d.snapshot.Advances d'.snapshot ∧ d'.Readable

/-- An update of the snapshot before finalization: one that leaves the outcome
alone, does not move the state back, and writes an exit only with its state. -/
theorem Ledger.Unfinished.update {d : Ledger} (h : d.Unfinished) {u : SnapshotUpdate}
    (houtcome : (u.apply d.snapshot).outcome = d.snapshot.outcome)
    (hforward : d.snapshot.state.rank ≤ (u.apply d.snapshot).state.rank)
    (hstate : (u.apply d.snapshot).state.rank < JobState.finalized.rank)
    (hexit : (u.apply d.snapshot).exit.isSome → (u.apply d.snapshot).state = .exited) :
    d.Keeps (d.update u) ∧ (d.update u).Unfinished := by
  have hopen : (u.apply d.snapshot).state ≠ .finalized := fun heq => by
    rw [heq] at hstate; exact absurd hstate (lt_irrefl _)
  have hwritten : (u.apply d.snapshot).state ≠ .cancelled := fun heq => by
    rw [heq] at hstate; exact absurd hstate (by decide)
  have hnone : ¬ d.snapshot.outcome.isSome := fun hsome =>
    h.state (h.consistent.outcome.mp hsome)
  have hcons : (d.update u).snapshot.Consistent :=
    { written := hwritten
      outcome := ⟨fun hsome => absurd (houtcome ▸ hsome) hnone, fun heq => absurd heq hopen⟩
      exit := fun hsome => Or.inl (hexit hsome)
      phase := fun heq => absurd heq hopen }
  have hunf : (d.update u).Unfinished := ⟨hcons, hopen, h.silent⟩
  exact ⟨⟨⟨hforward, fun hfin => absurd hfin h.state⟩, hunf.readable⟩, hunf⟩

/-- Sending anything but `Finalized` leaves the job unfinished. -/
theorem Ledger.Unfinished.send {d : Ledger} (h : d.Unfinished) {e : Event}
    (hbody : ∀ outcome, e.body ≠ .finalized outcome) : (d.send e).Unfinished := by
  refine ⟨h.consistent, h.state, ?_⟩
  rintro (⟨e', he', outcome, heq⟩ | hreplied)
  · rcases List.mem_append.mp he' with he' | he'
    · exact h.silent (Or.inl ⟨e', he', outcome, heq⟩)
    · exact hbody outcome (List.mem_singleton.mp he' ▸ heq)
  · exact h.silent (Or.inr hreplied)

theorem Ledger.Unfinished.metadata {cfg : Config} {d d' : Ledger} (h : d.Unfinished)
    (hmove : d.Metadata cfg d') : d.Keeps d' ∧ d'.Unfinished := by
  cases hmove with
  | send body time hbody =>
      have hunf : (d.send { job := cfg.id, body, time }).Unfinished :=
        h.send (fun outcome heq => by
          simp only at heq
          rw [heq] at hbody
          cases hbody)
      exact ⟨⟨.refl _, hunf.readable⟩, hunf⟩
  | update u hu =>
      have hstate : (u.apply d.snapshot).state = d.snapshot.state := by
        cases u <;> first | rfl | cases hu
      have hrank : d.snapshot.state.rank < JobState.finalized.rank := by
        have h₁ := h.state
        have h₂ := h.consistent.written
        cases hd : d.snapshot.state <;> simp_all [JobState.rank]
      refine h.update (by cases u <;> first | rfl | cases hu) (by rw [hstate])
        (by rw [hstate]; exact hrank) ?_
      intro hexit
      rw [hstate]
      have hsame : (u.apply d.snapshot).exit = d.snapshot.exit := by
        cases u <;> first | rfl | cases hu
      exact (h.consistent.exit (hsame ▸ hexit)).resolve_right h.state
  | newPhase =>
      have hunf : d.tookId.Unfinished := ⟨h.consistent, h.state, h.silent⟩
      exact ⟨⟨.refl _, hunf.readable⟩, hunf⟩

/-- A change that touches neither snapshot, events nor answer. -/
theorem Ledger.Unfinished.frame {d t : Ledger} (h : d.Unfinished)
    (hsnap : t.snapshot = d.snapshot) (hsent : t.sent = d.sent)
    (hreplied : t.replied = d.replied) : Respects Ledger.Keeps d t ∧ t.Unfinished := by
  have hunf : t.Unfinished := by
    refine ⟨hsnap ▸ h.consistent, hsnap ▸ h.state, ?_⟩
    unfold Announced
    rw [hsent, hreplied]
    exact h.silent
  exact ⟨Or.inr ⟨hsnap ▸ .refl _, hunf.readable⟩, hunf⟩

/-- From the update of the snapshot on, the end of `drive_job` makes the
copies of the outcome one after the other. -/
private theorem finalizeJob_snapshot {cfg : Config} {d : Ledger} (h : d.Unfinished)
    (hphase : d.snapshot.currentPhase = none) (outcome : Outcome) :
    Driver.wp cfg Ledger.Keeps (finalizeJob cfg outcome) (fun _ d' => d'.replied.isSome) d := by
  refine Driver.wp_finalizeJob ?_
  intro ok time finalized stored sent
  have hcons : finalized.snapshot.Consistent :=
    { written := by simp [finalized, SnapshotUpdate.apply]
      outcome := by simp [finalized, SnapshotUpdate.apply]
      exit := by simp [finalized, SnapshotUpdate.apply]
      phase := fun _ => hphase }
  have hforward : d.snapshot.Advances finalized.snapshot := by
    refine ⟨?_, fun hfin => absurd hfin h.state⟩
    have hwritten := h.consistent.written
    simp only [finalized, Ledger.update_snapshot, SnapshotUpdate.apply]
    cases hstate : d.snapshot.state <;> simp_all [JobState.rank]
  have hsilent : ¬ finalized.Announced := h.silent
  have hreadable : finalized.Readable := ⟨hcons, fun hsaid => absurd hsaid hsilent⟩
  have hstored : stored.Readable := ⟨hcons, fun hsaid => absurd hsaid hsilent⟩
  have hclosed : stored.closeRaw.Readable := ⟨hcons, fun hsaid => absurd hsaid hsilent⟩
  have hrow : stored.upsertsOk = true → ∀ found, stored.row = some found →
      ∃ row, found = some row ∧ row.outcomeJson = some ⟨outcome⟩ := by
    intro hoks found hfound
    simp only [stored, Ledger.upsert_row, Ledger.upsert_upsertsOk] at hoks hfound
    cases hrow : finalized.row with
    | none => cases ok <;> simp [hrow] at hfound
    | some old =>
        have hok : ok = true := by
          rw [hrow] at hoks
          simpa using (Bool.and_eq_true_iff.mp hoks).2
        simp only [hok, hrow, ↓reduceIte, Option.map_some, Option.some.injEq] at hfound
        exact ⟨_, hfound.symm, by simp [finalized, SnapshotUpdate.apply]⟩
  have hnone : d.replied = none := by
    by_contra hsome
    exact h.silent (Or.inr (Option.isSome_iff_ne_none.mpr hsome))
  have hunique : ∀ e ∈ sent.sent, ∀ other, e.body = .finalized other → other = outcome := by
    intro e he other heq
    rcases List.mem_append.mp he with he | he
    · exact absurd (Or.inl ⟨e, he, other, heq⟩) h.silent
    · rw [List.mem_singleton.mp he] at heq
      exact (EventBody.finalized.inj heq).symm
  have hmem : ∃ e ∈ sent.sent, e.body = .finalized outcome :=
    ⟨_, List.mem_append_right _ (List.mem_singleton_self _), rfl⟩
  have hsent : sent.Agreed outcome :=
    ⟨rfl, hrow, hmem, hunique, fun other heq => by simp [sent, stored, finalized, hnone] at heq⟩
  have hanswered : (sent.answer outcome).Agreed outcome :=
    ⟨rfl, hrow, hmem, hunique, fun other heq => (Option.some.inj heq).symm⟩
  exact ⟨Or.inr ⟨hforward, hreadable⟩, Or.inr ⟨.refl _, hstored⟩, Or.inr ⟨.refl _, hclosed⟩,
    Or.inr ⟨.refl _, hcons, fun _ => ⟨_, hsent⟩⟩,
    Or.inr ⟨.refl _, hcons, fun _ => ⟨_, hanswered⟩⟩, rfl⟩

private def snapshotSpec (cfg : Config) : Spec cfg Tracked where
  guarantee := Ledger.Keeps
  top _ d := d.Unfinished ∧ (d.snapshot.state = .running ∨ d.snapshot.state = .exited)
  done d := d.replied.isSome
  launch := by
    have hinit : (Ledger.init cfg).Unfinished :=
      ⟨⟨by simp [Ledger.init, Config.initialJob], by simp [Ledger.init, Config.initialJob],
        by simp [Ledger.init, Config.initialJob], fun _ => rfl⟩,
        by simp [Ledger.init, Config.initialJob], by simp [Ledger.Announced, Ledger.init]⟩
    refine Driver.wp_spawnJob ?_
    intro opens _ created opened
    have hcreated : created.Unfinished := hinit.send (fun _ => nofun)
    obtain ⟨hopen, hopened⟩ := hcreated.frame (t := opened) rfl rfl rfl
    obtain ⟨hfail, hfailed⟩ := hopened.frame (t := opened.failSpawn) rfl rfl rfl
    refine ⟨Or.inr ⟨.refl _, hcreated.readable⟩, hopen, hfail, fun error => ?_, ?_⟩
    · exact finalizeJob_snapshot hfailed rfl _
    · intro start pid
      obtain ⟨hpid, hspawned⟩ := hopened.frame (t := opened.spawned pid) rfl rfl rfl
      refine ⟨hpid, Driver.wp_startJob ?_⟩
      intro ok sentAt startedAt sent running stored attended
      have hsent : sent.Unfinished := hspawned.send (fun _ => nofun)
      obtain ⟨hrun, hrunning⟩ := hsent.update (u := .running startedAt) rfl
        (Nat.zero_le _) (by simp [SnapshotUpdate.apply, JobState.rank])
        (fun hexit => by cases hexit)
      obtain ⟨hstore, hstored⟩ := hrunning.frame (t := stored) rfl rfl rfl
      obtain ⟨hattend, hattended⟩ := hstored.frame (t := attended) rfl rfl rfl
      exact ⟨Or.inr ⟨.refl _, hsent.readable⟩, Or.inr hrun, hstore, hattend, hattended,
        Or.inl rfl⟩
  turn := by
    rintro v d r - ⟨hunf, hstate⟩ - hoffer
    have hselect : (d.select r).Unfinished := ⟨hunf.consistent, hunf.state, hunf.silent⟩
    refine ⟨⟨.refl _, hselect.readable⟩, ?_⟩
    cases r with
    | line stream result =>
        rcases result with _ | _ | text
        · exact ⟨hselect, hstate⟩
        · exact ⟨hselect, hstate⟩
        · refine Driver.wp_lineTurn (Driver.wp_processLine ?_)
          intro time written kept sent
          obtain ⟨hwrite, hwritten⟩ := hselect.frame (t := written) rfl rfl rfl
          obtain ⟨hkeep, hkept⟩ := hwritten.frame (t := kept) rfl rfl rfl
          have hsent : sent.Unfinished := hkept.send (fun _ => nofun)
          refine ⟨hwrite, hkeep, Or.inr ⟨.refl _, hsent.readable⟩, ?_⟩
          refine interpretLine_keeps (I := fun d => d.Unfinished ∧
            (d.snapshot.state = .running ∨ d.snapshot.state = .exited)) ?_ _ _ _ _
            ⟨hsent, hstate⟩
          rintro d₁ d₂ ⟨hd₁, hrun⟩ hmove
          refine ⟨(hd₁.metadata hmove).1, (hd₁.metadata hmove).2, ?_⟩
          cases hmove with
          | update u hu => cases u <;> first | exact hrun | cases hu
          | _ => exact hrun
    | exit result =>
        obtain ⟨-, hsome⟩ := hoffer
        obtain ⟨outcome, rfl⟩ := Option.isSome_iff_exists.mp hsome
        refine Driver.wp_receiveExit ?_
        intro ok time sent exited next
        have hsent : sent.Unfinished := hselect.send (fun _ => nofun)
        have hrank : d.snapshot.state.rank ≤ JobState.exited.rank := by
          rcases hstate with h | h <;> simp [h, JobState.rank]
        obtain ⟨hexit, hexited⟩ := hsent.update (u := .exited (exitCodeOf outcome.status))
          rfl hrank (by simp [SnapshotUpdate.apply, JobState.rank]) (fun _ => rfl)
        obtain ⟨hstore, hstored⟩ := hexited.frame (t := exited.upsert ok) rfl rfl rfl
        exact ⟨Or.inr ⟨.refl _, hsent.readable⟩, Or.inr hexit, hstore, hstored, Or.inr rfl⟩
  finish := by
    rintro v d - ⟨hunf, -⟩ -
    refine finishJob_keeps (fun d₁ d₂ h hmove => h.metadata hmove) v d hunf ?_
    intro cancelled state d' hd' hphase
    obtain ⟨hjudge, hjudged⟩ := hd'.frame (t := d'.judge cancelled) rfl rfl rfl
    exact ⟨hjudge, finalizeJob_snapshot hjudged hphase _⟩

theorem Sys.Reachable.readable {cfg : Config} {s : Sys} (hs : Sys.Reachable cfg s) :
    (s.ledger cfg).Readable := by
  refine (snapshotSpec cfg).always (tracked_of_top cfg) ?_ (fun _ _ _ h => h.2) hs
  refine ⟨⟨by simp [Ledger.init, Config.initialJob], by simp [Ledger.init, Config.initialJob],
    by simp [Ledger.init, Config.initialJob], fun _ => rfl⟩, ?_⟩
  rintro (⟨e, he, -⟩ | hreplied)
  · cases he
  · cases hreplied

theorem Sys.Move.advances {cfg : Config} {s t : Sys} (hs : Sys.Reachable cfg s)
    (h : s.Move cfg t) : s.job.Advances t.job := by
  rcases (snapshotSpec cfg).respects (tracked_of_top cfg) hs h with heq | hkeeps
  · have hsame : t.snapshot = s.snapshot := congrArg Ledger.snapshot heq
    unfold Sys.job
    rw [hsame]
    exact .refl _
  · exact hkeeps.1

/-- Along a run the snapshot only advances. -/
theorem Sys.Reachable.advances {cfg : Config} {s t : Sys} {ls : List Label}
    (hs : Sys.Reachable cfg s) (hrun : Transition.run (Sys.step cfg) s ls = some t) :
    s.job.Advances t.job := by
  have hboth : Sys.Reachable cfg t ∧ s.job.Advances t.job := by
    refine Transition.invariant_of_run (P := fun _ _ => True)
      (I := fun u => Sys.Reachable cfg u ∧ s.job.Advances u.job) ?_ ⟨hs, .refl _⟩
      (Transition.stepsMeet_of_forall (fun _ _ => trivial) _ _) hrun
    rintro u l u' ⟨hu, hadv⟩ - hstep
    exact ⟨Transition.Reachable.extend hu hstep,
      hadv.trans ((Sys.step_move hstep).advances hu)⟩
  exact hboth.2

/-- `Finalized` is an event of the driver. -/
theorem Sys.Reachable.sent_of_finalized {cfg : Config} {s : Sys} (hs : Sys.Reachable cfg s)
    {e : Event} {outcome : Outcome} (he : e ∈ s.log) (hbody : e.body = .finalized outcome) :
    e ∈ s.sent := by
  apply hs.mem_sent_iff.mpr
  rw [hbody]
  exact ⟨he, rfl⟩

/-- A broadcast outcome is the one in the snapshot. -/
theorem Sys.Reachable.outcome_of_finalized {cfg : Config} {s : Sys}
    (hs : Sys.Reachable cfg s) {e : Event} {outcome : Outcome} (he : e ∈ s.log)
    (hbody : e.body = .finalized outcome) : s.job.outcome = some outcome := by
  have hsent := hs.sent_of_finalized he hbody
  obtain ⟨other, hagreed⟩ := hs.readable.2 (Or.inl ⟨e, hsent, outcome, hbody⟩)
  rw [hagreed.unique e hsent outcome hbody]
  exact hagreed.snapshot

/-- So is the one sent to the handle. -/
theorem Sys.Reachable.outcome_of_answer {cfg : Config} {s : Sys} (hs : Sys.Reachable cfg s)
    {outcome : Outcome} (hanswer : s.outcomeRx.value = some outcome) :
    s.job.outcome = some outcome := by
  obtain ⟨other, hagreed⟩ := hs.readable.2
    (Or.inr (Option.isSome_iff_exists.mpr ⟨outcome, hanswer⟩))
  rw [hagreed.replied outcome hanswer]
  exact hagreed.snapshot

/-! The handle. -/

/-- The driver does not return without an answer. -/
theorem Sys.Reachable.answered {cfg : Config} {s : Sys} (hs : Sys.Reachable cfg s)
    (hret : s.ctl = .returned) : s.outcomeRx.value.isSome := by
  have hdone := (snapshotSpec cfg).holds (tracked_of_top cfg) hs
  rw [hret] at hdone
  exact hdone

theorem Ledger.act_replied (cfg : Config) (w : Oracle) (o : Op) {d : Ledger}
    (h : d.replied.isSome) : (Ledger.act cfg w o d).2.replied.isSome := by
  cases o with
  | reply outcome => rfl
  | spawnChild => simp only [Ledger.act]; cases w.spawned <;> exact h
  | _ => exact h

/-- An answer is not taken back. -/
theorem Sys.Move.still_answered {cfg : Config} {s t : Sys} (hs : Sys.Reachable cfg s)
    (h : s.Move cfg t) (hanswered : s.outcomeRx.value.isSome) : t.outcomeRx.value.isSome := by
  change (t.ledger cfg).replied.isSome
  rcases h.frame with hdrv | ⟨-, -, hled⟩
  · rcases hdrv.ledger_cases hs.snapshot_id with
      ⟨w, o, k, -, -, hled⟩ | ⟨v, -, -, -, hled⟩ | ⟨-, hled⟩ | ⟨v, r, -, -, -, -, hled⟩
    · rw [hled]; exact Ledger.act_replied cfg w o hanswered
    all_goals rw [hled]; exact hanswered
  · rw [hled]; exact hanswered

/-- Nor is it replaced, since the snapshot it agrees with is final. -/
theorem Sys.Move.answer_once {cfg : Config} {s t : Sys} (hs : Sys.Reachable cfg s)
    (ht : Sys.Reachable cfg t) (h : s.Move cfg t) {outcome : Outcome}
    (hanswer : s.outcomeRx.value = some outcome) : t.outcomeRx.value = some outcome := by
  obtain ⟨other, hother⟩ := Option.isSome_iff_exists.mp
    (h.still_answered hs (by rw [hanswer]; rfl))
  have hsome := hs.outcome_of_answer hanswer
  have hfinal : s.job.state = .finalized := hs.readable.1.outcome.mp (by
    change s.job.outcome.isSome
    rw [hsome]; rfl)
  have hsome' := ht.outcome_of_answer hother
  rw [(h.advances hs).final hfinal, hsome] at hsome'
  rw [hother, hsome']

/-- What the handle resolves with is the driver's answer: the driver never
leaves it to make up one of its own. -/
theorem Sys.Reachable.value_of_yields {cfg : Config} {s : Sys} (hs : Sys.Reachable cfg s) :
    ∀ outcome, s.handleYields = some outcome → s.outcomeRx.value = some outcome := by
  refine hs.invariant (I := fun s => ∀ outcome, s.handleYields = some outcome →
    s.outcomeRx.value = some outcome) (by simp [Sys.init]) ?_
  intro s t hs ht hI hmove outcome hyields
  have hkept : s.handleYields = t.handleYields → t.outcomeRx.value = some outcome :=
    fun hsame => hmove.answer_once hs ht (hI outcome (hsame.trans hyields))
  cases hmove with
  | driver h =>
      cases h with
      | op w o k hctl => exact hkept (s.act_leaves cfg w o).handleYields.symm
      | _ => exact hkept rfl
  | wait h => cases h <;> exact hkept rfl
  | world h =>
      cases h with
      | handleAnswered answer hrx => exact hyields
      | handleOrphaned hctl hrx =>
          have hanswered := hs.answered hctl
          rw [hrx] at hanswered
          cases hanswered
      | arrive stream _ | close stream _ => cases stream <;> exact hkept rfl
      | _ => exact hkept rfl

theorem Sys.Reachable.outcome_of_yields {cfg : Config} {s : Sys} (hs : Sys.Reachable cfg s)
    {outcome : Outcome} (h : s.handleYields = some outcome) :
    s.job.outcome = some outcome :=
  hs.outcome_of_answer (hs.value_of_yields outcome h)

/-- The snapshot of a job is consistent at every moment and only advances; and
once `Finalized` has been broadcast or the handle has resolved, the snapshot,
the stored row (if every upsert succeeded), the event and the handle's value
carry one outcome. -/
theorem snapshot_lifecycle {cfg : Config} {s : Sys} (hs : Sys.Reachable cfg s) :
    s.job.Consistent ∧
    (∀ ls t, Transition.run (Sys.step cfg) s ls = some t → s.job.Advances t.job) ∧
    ((∃ e ∈ s.log, ∃ outcome, e.body = .finalized outcome) ∨ s.handleYields.isSome →
      ∃ outcome, s.job.outcome = some outcome ∧
        (∀ store, s.store = some store → s.upsertsOk = true →
          ∃ row, store.row cfg.id = some row ∧ row.outcomeJson = some ⟨outcome⟩) ∧
        (∃ e ∈ s.log, e.body = .finalized outcome) ∧
        (∀ e ∈ s.log, ∀ other, e.body = .finalized other → other = outcome) ∧
        (∀ other, s.handleYields = some other → other = outcome)) := by
  refine ⟨hs.readable.1, fun ls t hrun => hs.advances hrun, fun hannounced => ?_⟩
  have hsaid : (s.ledger cfg).Announced := by
    rcases hannounced with ⟨e, he, outcome, heq⟩ | hsome
    · exact Or.inl ⟨e, hs.sent_of_finalized he heq, outcome, heq⟩
    · obtain ⟨outcome, hyield⟩ := Option.isSome_iff_exists.mp hsome
      exact Or.inr (Option.isSome_iff_exists.mpr ⟨outcome, hs.value_of_yields outcome hyield⟩)
  obtain ⟨outcome, hagreed⟩ := hs.readable.2 hsaid
  refine ⟨outcome, hagreed.snapshot, ?_, ?_, ?_, ?_⟩
  · intro store hstore hok
    exact hagreed.row hok (store.row cfg.id) (by simp [Sys.ledger, hstore])
  · obtain ⟨e, he, heq⟩ := hagreed.sent
    exact ⟨e, (hs.mem_sent_iff.mp he).1, heq⟩
  · exact fun e he other heq => hagreed.unique e (hs.sent_of_finalized he heq) other heq
  · exact fun other hyield => hagreed.replied other (hs.value_of_yields other hyield)

def storedConfig : Config := { plainConfig with store := some {} }

/-- A job with a store runs to its end, and its handle is polled. -/
def storedRun : List Label := drive 12 ++ leaveQuietly ++ drive 18 ++ [.pollHandle]

theorem storedRun_runs :
    (Transition.run (Sys.step storedConfig) (Sys.init storedConfig) storedRun).isSome = true := by
  decide

def storedEnd : Sys := Transition.endOf _ _ storedRun storedRun_runs

theorem storedEnd_yields : storedEnd.handleYields = some (.succeeded none []) := by decide

theorem snapshot_lifecycle_stored :
    storedEnd.job.Consistent ∧ ∃ outcome, storedEnd.job.outcome = some outcome ∧
      (∀ store, storedEnd.store = some store → storedEnd.upsertsOk = true →
        ∃ row, store.row ⟨0⟩ = some row ∧ row.outcomeJson = some ⟨outcome⟩) ∧
      (∃ e ∈ storedEnd.log, e.body = .finalized outcome) := by
  have h := snapshot_lifecycle
    (Transition.reachable_endOf (Sys.init storedConfig) storedRun storedRun_runs)
  obtain ⟨outcome, hjob, hrow, hevent, -⟩ :=
    h.2.2 (Or.inr (Option.isSome_iff_exists.mpr ⟨_, storedEnd_yields⟩))
  exact ⟨h.1, outcome, hjob, hrow, hevent⟩

end Execra
