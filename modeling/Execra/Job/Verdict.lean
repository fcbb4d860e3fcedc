import Execra.Job.Lifecycle

/-!
Where an outcome comes from. A job whose process could not be spawned fails
with that; any other outcome is computed after the loop from the results of
the loop, the token as the driver reads it then, and what the interpreter has
left in the driver's state. The last has no say in the constructor.
-/

namespace Execra

open Program

/-- The outcome of a job whose loop has returned `rs`. -/
def verdictOf (rs : List SelectResult) (cancelled : Bool) (state : DriverState) : Outcome :=
  computeOutcome cancelled (((exitIn rs).map WaitOutcome.timedOut).getD false)
    (finalExitCode ((exitIn rs).map WaitOutcome.status)) state

/-- The outcome in the snapshot has one of the two origins. -/
def Ledger.Judged (d : Ledger) : Prop :=
  (∀ outcome, d.snapshot.outcome = some outcome →
    (d.spawnFailed = true ∧ ∃ error, outcome = .failed (.spawnFailed error) none []) ∨
    (d.spawnFailed = false ∧ ∃ cancelled state, d.verdict = some cancelled ∧
      outcome = verdictOf d.selected cancelled state)) ∧
  (d.verdict.isSome → LoopOver d.selected) ∧
  (d.spawnFailed = true → d.child = none)

/-- A driver that has not asked for its verdict yet. -/
structure Ledger.Open (d : Ledger) : Prop where
  outcome : d.snapshot.outcome = none
  verdict : d.verdict = none
  spawnFailed : d.spawnFailed = false

theorem Ledger.Open.judged {d : Ledger} (h : d.Open) : d.Judged := by
  refine ⟨fun outcome hsome => ?_, fun hsome => ?_, fun hfailed => ?_⟩
  · rw [h.outcome] at hsome; cases hsome
  · rw [h.verdict] at hsome; cases hsome
  · rw [h.spawnFailed] at hfailed; cases hfailed

theorem Ledger.Open.metadata {cfg : Config} {d d' : Ledger} (h : d.Open)
    (hmove : d.Metadata cfg d') : d'.Open := by
  cases hmove with
  | send body time hbody => exact ⟨h.outcome, h.verdict, h.spawnFailed⟩
  | update u hu =>
      refine ⟨?_, h.verdict, h.spawnFailed⟩
      cases u <;> first | exact h.outcome | cases hu
  | newPhase => exact ⟨h.outcome, h.verdict, h.spawnFailed⟩

/-- The driver reads the token once. -/
structure Ledger.Judges (d d' : Ledger) : Prop where
  judged : d'.Judged
  once : d.verdict.isSome → d'.verdict = d.verdict

theorem Ledger.Judged.judges {d d' : Ledger} (h : d'.Judged)
    (hsame : d'.verdict = d.verdict) : d.Judges d' := ⟨h, fun _ => hsame⟩

/-- A change that leaves the driver open. -/
theorem Ledger.Open.judges {d d' : Ledger} (h : d'.Open) (hsame : d'.verdict = d.verdict) :
    d.Judges d' := h.judged.judges hsame

theorem Ledger.Open.judges_metadata {cfg : Config} {d d' : Ledger} (h : d.Open)
    (hmove : d.Metadata cfg d') : d.Judges d' :=
  (h.metadata hmove).judges (by cases hmove <;> rfl)

/-- After the update of the snapshot nothing the verdict rests on changes. -/
private theorem finalizeJob_judged {cfg : Config} {d : Ledger} {outcome : Outcome}
    (h : (d.update (.finalized outcome)).Judged) :
    Driver.wp cfg Ledger.Judges (finalizeJob cfg outcome)
      (fun _ d' => d'.snapshot.outcome.isSome) d := by
  refine Driver.wp_finalizeJob ?_
  intro ok time finalized stored sent
  have hfinalized : finalized.Judged := h
  have hstored : stored.Judged := h
  have hclosed : stored.closeRaw.Judged := h
  have hsent : sent.Judged := h
  have hanswered : (sent.answer outcome).Judged := h
  exact ⟨Or.inr (hfinalized.judges rfl), Or.inr (hstored.judges rfl),
    Or.inr (hclosed.judges rfl), Or.inr (hsent.judges rfl), Or.inr (hanswered.judges rfl), rfl⟩

private def verdictSpec (cfg : Config) : Spec cfg Tracked where
  guarantee := Ledger.Judges
  top _ d := d.Open
  done d := d.snapshot.outcome.isSome
  launch := by
    refine Driver.wp_spawnJob ?_
    intro opens _ created opened
    have hcreated : created.Open := ⟨rfl, rfl, rfl⟩
    have hopened : opened.Open := ⟨rfl, rfl, rfl⟩
    have hfailed : opened.failSpawn.Judged := by
      refine ⟨fun outcome hsome => ?_, fun hsome => ?_, fun _ => rfl⟩
      · have hnone : opened.failSpawn.snapshot.outcome = none := rfl
        rw [hnone] at hsome
        cases hsome
      · have hnone : opened.failSpawn.verdict = none := rfl
        rw [hnone] at hsome
        cases hsome
    refine ⟨Or.inr (hcreated.judges rfl), Or.inr (hopened.judges rfl),
      Or.inr ⟨hfailed, fun _ => rfl⟩, fun error => ?_, ?_⟩
    · refine finalizeJob_judged ⟨fun outcome hsome => Or.inl ⟨rfl, error, ?_⟩, hfailed.2⟩
      exact (Option.some.inj hsome).symm
    · intro start pid
      have hspawned : (opened.spawned pid).Open := ⟨rfl, rfl, rfl⟩
      refine ⟨Or.inr (hspawned.judges rfl), Driver.wp_startJob ?_⟩
      intro ok sentAt startedAt sent running stored attended
      have hsent : sent.Open := ⟨rfl, rfl, rfl⟩
      have hrunning : running.Open := ⟨rfl, rfl, rfl⟩
      have hstored : stored.Open := ⟨rfl, rfl, rfl⟩
      have hattended : attended.Open := ⟨rfl, rfl, rfl⟩
      exact ⟨Or.inr (hsent.judges rfl), Or.inr (hrunning.judges rfl),
        Or.inr (hstored.judges rfl), Or.inr (hattended.judges rfl), hattended⟩
  turn := by
    rintro v d r - htop - hoffer
    have hselect : (d.select r).Open := ⟨htop.outcome, htop.verdict, htop.spawnFailed⟩
    refine ⟨hselect.judges rfl, ?_⟩
    cases r with
    | line stream result =>
        rcases result with _ | _ | text
        · exact hselect
        · exact hselect
        · refine Driver.wp_lineTurn (Driver.wp_processLine ?_)
          intro time written kept sent
          have hwritten : written.Open := ⟨htop.outcome, htop.verdict, htop.spawnFailed⟩
          have hkept : kept.Open := ⟨htop.outcome, htop.verdict, htop.spawnFailed⟩
          have hsent : sent.Open := ⟨htop.outcome, htop.verdict, htop.spawnFailed⟩
          exact ⟨Or.inr (hwritten.judges rfl), Or.inr (hkept.judges rfl),
            Or.inr (hsent.judges rfl),
            interpretLine_keeps (fun _ _ h hmove => ⟨h.judges_metadata hmove, h.metadata hmove⟩)
              v.start _ v.state sent hsent⟩
    | exit result =>
        obtain ⟨-, hsome⟩ := hoffer
        obtain ⟨outcome, rfl⟩ := Option.isSome_iff_exists.mp hsome
        refine Driver.wp_receiveExit ?_
        intro ok time sent exited next
        have hsent : sent.Open := ⟨htop.outcome, htop.verdict, htop.spawnFailed⟩
        have hexited : exited.Open := ⟨htop.outcome, htop.verdict, htop.spawnFailed⟩
        have hstored : (exited.upsert ok).Open := ⟨htop.outcome, htop.verdict, htop.spawnFailed⟩
        exact ⟨Or.inr (hsent.judges rfl), Or.inr (hexited.judges rfl),
          Or.inr (hstored.judges rfl), hstored⟩
  finish := by
    intro v d htracked htop hended
    have hover : LoopOver d.selected := htracked.loopOver hended
    have hkeep : ∀ d₁ d₂ : Ledger, d₁.Open ∧ d₁.selected = d.selected → d₁.Metadata cfg d₂ →
        d₁.Judges d₂ ∧ d₂.Open ∧ d₂.selected = d.selected := by
      rintro d₁ d₂ ⟨hd₁, hsel⟩ hmove
      refine ⟨hd₁.judges_metadata hmove, hd₁.metadata hmove, ?_⟩
      cases hmove <;> exact hsel
    refine finishJob_keeps hkeep v d ⟨htop, rfl⟩ ?_
    rintro cancelled state d' ⟨hd', hsel⟩ -
    have hover' : LoopOver d'.selected := hsel ▸ hover
    have hspawned : (d'.judge cancelled).spawnFailed = true → (d'.judge cancelled).child = none :=
      fun hfailed => absurd (hd'.spawnFailed.symm.trans hfailed) nofun
    refine ⟨Or.inr ⟨⟨fun outcome hsome => ?_, fun _ => hover', hspawned⟩, fun hsome => ?_⟩,
      finalizeJob_judged ⟨fun outcome hsome => Or.inr ⟨hd'.spawnFailed, cancelled, state, rfl, ?_⟩,
        fun _ => hover', hspawned⟩⟩
    · exact absurd (hd'.outcome.symm.trans hsome) nofun
    · rw [hd'.verdict] at hsome
      cases hsome
    · rw [← Option.some.inj hsome, htracked.timedOut, htracked.status, ← hsel]
      rfl

theorem Sys.Reachable.judged {cfg : Config} {s : Sys} (hs : Sys.Reachable cfg s) :
    (s.ledger cfg).Judged :=
  (verdictSpec cfg).always (tracked_of_top cfg) (⟨rfl, rfl, rfl⟩ : (Ledger.init cfg).Open).judged
    (fun _ _ _ h => h.judged) hs

/-- What the driver has read off the token stays. -/
theorem Sys.Move.verdict_once {cfg : Config} {s t : Sys} (hs : Sys.Reachable cfg s)
    (h : s.Move cfg t) (hread : s.verdict.isSome) : t.verdict = s.verdict := by
  rcases (verdictSpec cfg).respects (tracked_of_top cfg) hs h with heq | hjudges
  · exact congrArg Ledger.verdict heq
  · exact hjudges.once hread

theorem Sys.Reachable.outcome_of_returned {cfg : Config} {s : Sys}
    (hs : Sys.Reachable cfg s) (hret : s.ctl = .returned) : s.job.outcome.isSome := by
  have hdone := (verdictSpec cfg).holds (tracked_of_top cfg) hs
  rw [hret] at hdone
  exact hdone

/-- The outcome of a started job whose driver has returned. -/
theorem Sys.Reachable.verdict_of_returned {cfg : Config} {s : Sys}
    (hs : Sys.Reachable cfg s) (hret : s.ctl = .returned) (hchild : s.child.isSome) :
    ∃ cancelled state, s.verdict = some cancelled ∧
      s.snapshot.outcome = some (verdictOf s.selected cancelled state) := by
  obtain ⟨outcome, hsome⟩ := Option.isSome_iff_exists.mp (hs.outcome_of_returned hret)
  rcases hs.judged.1 outcome hsome with ⟨hfailed, -⟩ | ⟨-, cancelled, state, hverdict, heq⟩
  · have hnone : s.child = none := hs.judged.2.2 hfailed
    rw [hnone] at hchild
    cases hchild
  · exact ⟨cancelled, state, hverdict, heq ▸ hsome⟩

/-! The constructor of an outcome. -/

def Outcome.isCancelled : Outcome → Bool
  | .cancelled _ => true
  | _ => false

/-- Two outcomes have the same constructor. -/
def Outcome.Alike : Outcome → Outcome → Prop
  | .succeeded .., .succeeded .. => True
  | .failed .., .failed .. => True
  | .cancelled _, .cancelled _ => True
  | _, _ => False

def FailureReason.isKnownError : FailureReason → Bool
  | .knownError .. => true
  | _ => false

theorem computeOutcome_isCancelled (cancelled timedOut : Bool) (exit : ExitCode)
    (state : DriverState) :
    (computeOutcome cancelled timedOut exit state).isCancelled = cancelled := by
  cases cancelled <;> cases timedOut <;> cases h : exit.isSuccess <;>
    simp [computeOutcome, h, Outcome.isCancelled]

/-- The driver's state has no say in the constructor of the outcome. -/
theorem computeOutcome_alike (cancelled timedOut : Bool) (exit : ExitCode)
    (state state' : DriverState) :
    (computeOutcome cancelled timedOut exit state).Alike
      (computeOutcome cancelled timedOut exit state') := by
  cases cancelled <;> cases timedOut <;> cases h : exit.isSuccess <;>
    simp [computeOutcome, h, Outcome.Alike]

/-- Two states that give two reasons for a failure: one of them holds a known
error, and the job was neither cancelled nor timed out. -/
theorem computeOutcome_reasons {cancelled timedOut : Bool} {exit : ExitCode}
    {state state' : DriverState} {reason reason' : FailureReason}
    {summary summary' : Option String} {findings findings' : List Finding}
    (h : computeOutcome cancelled timedOut exit state = .failed reason summary findings)
    (h' : computeOutcome cancelled timedOut exit state' = .failed reason' summary' findings')
    (hne : reason ≠ reason') :
    cancelled = false ∧ timedOut = false ∧
      (reason.isKnownError = true ∨ reason'.isKnownError = true) := by
  cases cancelled with
  | true => simp [computeOutcome] at h
  | false =>
      cases timedOut with
      | true =>
          simp only [computeOutcome, Bool.false_eq_true, ↓reduceIte, Outcome.failed.injEq] at h h'
          exact absurd (h.1.symm.trans h'.1) hne
      | false =>
          refine ⟨rfl, rfl, ?_⟩
          cases hsuccess : exit.isSuccess with
          | true => simp [computeOutcome, hsuccess] at h
          | false =>
              simp only [computeOutcome, hsuccess, Bool.false_eq_true, ↓reduceIte,
                Outcome.failed.injEq] at h h'
              rcases hk : state.knownError with _ | known
              · rcases hk' : state'.knownError with _ | known'
                · rw [hk] at h
                  rw [hk'] at h'
                  exact absurd (h.1.symm.trans h'.1) hne
                · right
                  rw [← h'.1, hk']
                  rfl
              · left
                rw [← h.1, hk]
                rfl

end Execra
