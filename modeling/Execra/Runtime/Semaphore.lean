import Execra.Runtime.Liveness
import Mathlib.Data.Finset.Card

/-!
The semaphore as a queue. A driver that has asked for a permit is passed over by none
but those that waited before it, and there are fewer of them with every permit that is
handed out. So it is enough that the scheduler passes over nobody for ever: then no
driver waits for ever at the semaphore either, as long as permits become free.
-/

namespace Execra

open Transition

namespace Runtime

variable {rt rt' : Runtime} {l : RuntimeLabel} {i : ℕ}

/-- The driver of job `i` waits for its permit. -/
def waits (rt : Runtime) (i : ℕ) : Bool := rt.jobs[i]?.any (fun e => e.sys.ctl.acquires)

/-- The driver of job `i` has had its permit. -/
def Served (rt : Runtime) (i : ℕ) : Prop := ∃ e, rt.jobs[i]? = some e ∧ e.permit ≠ .waiting

theorem waits_iff : rt.waits i = true ↔ ∃ e, rt.jobs[i]? = some e ∧ e.sys.ctl.acquires = true := by
  cases h : rt.jobs[i]? <;> simp [waits, h]

theorem Served.not_waits (h : rt.Served i) (hplaced : ∀ e ∈ rt.jobs, e.Placed) :
    rt.waits i = false := by
  obtain ⟨e, he, hserved⟩ := h
  have hacquires := (hplaced e (List.mem_of_getElem? he)).acquires hserved
  simp [waits, he, hacquires]

/-- A driver waits until it is served. -/
theorem Move.waits (h : rt.Move l rt') (hshares : rt.Shares) (hwaits : rt.waits i = true) :
    rt'.waits i = true ∨ rt'.Served i := by
  obtain ⟨e, he, hacquires⟩ := waits_iff.mp hwaits
  obtain ⟨e', he', rfl | ⟨own, hown, -⟩⟩ := h.entry hshares he
  · exact Or.inl (waits_iff.mpr ⟨_, he', hacquires⟩)
  · cases hown with
    | acquire w store s => exact Or.inr ⟨_, he', Permit.noConfusion⟩
    | step own store s hstore hctl hstep =>
        left
        refine waits_iff.mpr ⟨_, he', ?_⟩
        have hrest : ¬driverTurn (some own) := by
          intro hturn
          obtain ⟨w, hsame⟩ := eq_driver_of_turn hturn
          rw [Option.some.inj hsame] at hctl
          rw [hctl rfl] at hacquires
          cases hacquires
        have hmove : stuttering (Sys.step e.cfg) (e.sys.withStore store) (some own) = some s :=
          hstep
        rw [ctl_of_rest hmove hrest]
        exact hacquires
    | release hctl => rw [hctl] at hacquires; cases hacquires

/-- Permits become fewer only if a driver that has waited is served. -/
theorem Move.permits_cases (h : rt.Move l rt') : rt.permits ≤ rt'.permits ∨
    ∃ j, RuntimeLabel.ofDriver j l ∧ rt.waits j = true ∧ rt'.Served j := by
  cases h with
  | acquire j e w s he hctl =>
      right
      refine ⟨j, by simp [RuntimeLabel.ofDriver, ownLabel, taking, Label.ofDriver],
        waits_iff.mpr ⟨e, he, hctl⟩, ?_⟩
      have hlen := (List.getElem?_eq_some_iff.mp he).1
      exact ⟨{ e with sys := s, permit := .held }, by simp [hlen], Permit.noConfusion⟩
  | release => exact Or.inl (Nat.le_succ _)
  | _ => exact Or.inl (Nat.le_refl _)

/-- A driver that waits and can move finds a permit. -/
theorem permits_of_enabled (hen : Enabled step (RuntimeLabel.ofDriver i) rt)
    (hwaits : rt.waits i = true) : 0 < rt.permits := by
  obtain ⟨l, hl, hstep⟩ := hen
  obtain ⟨rt', hrt'⟩ := Option.isSome_iff_exists.mp hstep
  obtain ⟨e, he, hacquires⟩ := waits_iff.mp hwaits
  obtain ⟨w, hown⟩ := eq_driver_of_turn hl
  cases step_move hrt' with
  | acquire j e w s _ _ hfree => exact hfree
  | job j found own s hfound hctl =>
      obtain ⟨rfl, hsame⟩ := Option.ite_none_right_eq_some.mp hown
      cases he.symm.trans hfound
      rw [hctl (by rw [Option.some.inj hsame]; rfl)] at hacquires
      cases hacquires
  | _ => cases hown

end Runtime

/-- From some moment on, when it has joined the queue, a driver that waits is passed over
by none but those that waited then. -/
def Runtime.Queues (b : RuntimeBehavior) : Prop :=
  ∀ i n, (b.state n).waits i = true → Eventually (fun k => ∀ m j, k ≤ m →
    (b.state m).waits i = true → driverTurnOf j (b.label m) →
    (b.state m).waits j = true → (b.state k).waits j = true) n

section Behavior

variable {config : RuntimeConfig} {maxConcurrent : ℕ} {store : Option Store}
  {persisted : List Job} {b : RuntimeBehavior} {i j n m k : ℕ}

/-- Of those that waited at the moment `k`, how many still wait. -/
def stillWaiting (b : RuntimeBehavior) (k m : ℕ) : ℕ :=
  ((Finset.range (b.state k).jobs.length).filter (fun j =>
    (b.state k).waits j = true ∧ (b.state m).waits j = true)).card

section Start

variable (hstart : b.state 0 = Runtime.fromParts config maxConcurrent store persisted)

include hstart

theorem served_not_waits (h : (b.state n).Served i) : (b.state n).waits i = false :=
  h.not_waits (fun e he => (placed_at hstart n e he).2)

theorem served_for_good : Stable (fun m => (b.state m).Served i) :=
  kept_for_good hstart (I := fun rt => rt.Served i)
    (fun _ _ _ hshares _ hmove ⟨_, he, hserved⟩ => hmove.served hshares he hserved)

/-- A driver does not come back into the queue. -/
theorem waited_before (hkm : k ≤ m) (hbefore : (b.state k).waits j = true)
    (hafter : (b.state (m + 1)).waits j = true) : (b.state m).waits j = true := by
  have hstable : Stable (fun m => (b.state m).waits j = true ∨ (b.state m).Served j) :=
    kept_for_good hstart (I := fun rt => rt.waits j = true ∨ rt.Served j)
      (fun _ _ _ hshares _ hmove h => h.elim (hmove.waits hshares)
        (fun ⟨_, he, hserved⟩ => Or.inr (hmove.served hshares he hserved)))
  rcases hstable.le hkm (Or.inl hbefore) with hwaits | hserved
  · exact hwaits
  · rw [served_not_waits hstart (served_for_good hstart m hserved)] at hafter
    cases hafter

theorem stillWaiting_le (hkm : k ≤ m) : stillWaiting b k (m + 1) ≤ stillWaiting b k m := by
  refine Finset.card_le_card (fun j hj => ?_)
  rw [Finset.mem_filter] at hj ⊢
  exact ⟨hj.1, hj.2.1, waited_before hstart hkm hj.2.1 hj.2.2⟩

theorem stillWaiting_le_of_le {m' : ℕ} (hkm : k ≤ m) (hle : m ≤ m') :
    stillWaiting b k m' ≤ stillWaiting b k m := by
  induction m', hle using Nat.le_induction with
  | base => exact le_refl _
  | succ m' hm' ih => exact (stillWaiting_le hstart (hkm.trans hm')).trans ih

/-- Whoever is served is one less to wait for. -/
theorem stillWaiting_lt (hkm : k ≤ m) (hbefore : (b.state k).waits j = true)
    (hwaits : (b.state m).waits j = true) (hserved : (b.state (m + 1)).Served j) :
    stillWaiting b k (m + 1) < stillWaiting b k m := by
  have hlen : j < (b.state k).jobs.length := by
    obtain ⟨e, he, -⟩ := Runtime.waits_iff.mp hbefore
    exact (List.getElem?_eq_some_iff.mp he).1
  refine Finset.card_lt_card ⟨fun j hj => ?_, fun hsubset => ?_⟩
  · rw [Finset.mem_filter] at hj ⊢
    exact ⟨hj.1, hj.2.1, waited_before hstart hkm hj.2.1 hj.2.2⟩
  · have hin := hsubset (Finset.mem_filter.mpr ⟨Finset.mem_range.mpr hlen, hbefore, hwaits⟩)
    have hafter := (Finset.mem_filter.mp hin).2.2
    rw [served_not_waits hstart hserved] at hafter
    cases hafter

/-- A driver that waits finds permits, or one of those before it is served. -/
theorem permits_kept_or_less {q p : ℕ} (hqp : q ≤ p) (hpos : 0 < (b.state p).permits)
    (hturn : ∀ m j, q ≤ m → driverTurnOf j (b.label m) → (b.state m).waits j = true →
      (b.state q).waits j = true) (hm : p ≤ m) :
    0 < (b.state m).permits ∨ stillWaiting b q m < stillWaiting b q p := by
  induction m, hm using Nat.le_induction with
  | base => exact Or.inl hpos
  | succ m hm ih =>
      have hqm := hqp.trans hm
      have hle := stillWaiting_le hstart hqm
      rcases ih with hpos | hless
      · rcases Runtime.turn_cases (b.next m) with hsame | ⟨own, hlabel, hmove⟩
        · exact Or.inl (hsame ▸ hpos)
        · rcases hmove.permits_cases with hkept | ⟨l, hl, hwl, hserved⟩
          · exact Or.inl (hpos.trans_le hkept)
          · have hbefore := hturn m l hqm (by rw [hlabel]; exact hl) hwl
            have hfewer := stillWaiting_lt hstart hqm hbefore hwl hserved
            have hmonotone := stillWaiting_le_of_le hstart hqp hm
            exact Or.inr (hfewer.trans_le hmonotone)
      · exact Or.inr (hle.trans_lt hless)

end Start

/-- A driver that the scheduler does not pass over for ever is not kept waiting for ever by
the semaphore either, if permits are there for it again and again. -/
theorem queue_serves_drivers
    (hstart : b.state 0 = Runtime.fromParts config maxConcurrent store persisted)
    (hdrivers : ∀ i, b.Just (driverTurnOf i)) (hqueues : Runtime.Queues b) :
    ∀ i, b.Compassionate (driverTurnOf i) := by
  intro i n hagain
  by_contra hnever
  have hrest : ∀ m, n ≤ m → ¬driverTurnOf i (b.label m) :=
    fun m hm hmoves => hnever ⟨m, hm, hmoves⟩
  -- an enabled driver is at a place that it leaves by a step of its own only
  obtain ⟨k, hk, hen⟩ := hagain n (le_refl n)
  obtain ⟨e, he, hctl⟩ : ∃ e : Entry, (b.state k).jobs[i]? = some e ∧ e.sys.ctl ≠ .returned := by
    by_contra hnone
    refine Runtime.idle_driver (fun e he => ?_) (enabled_stuttering.mp hen)
    by_contra hctl
    exact hnone ⟨e, he, hctl⟩
  have hstays : ∀ m, k ≤ m → ∃ e', (b.state m).jobs[i]? = some e' ∧ e'.sys.ctl = e.sys.ctl :=
    fun m hm => ctl_of_rests hstart he (fun m hm => hrest m (hk.trans hm)) hm
  have hstuck : ∀ p, k ≤ p → ¬∀ m, p ≤ m → e.sys.ctl.acquires = true →
      0 < (b.state m).permits := by
    intro p hp hfree
    obtain ⟨m, hm, hmoves | hdisabled⟩ := hdrivers i p
    · exact hrest m (hk.trans (hp.trans hm)) hmoves
    · obtain ⟨e', he', hsame⟩ := hstays m (hp.trans hm)
      exact hdisabled (driver_ready hstart he' (hsame ▸ hctl) (hsame ▸ hfree m hm))
  cases hacquires : e.sys.ctl.acquires with
  | false => exact hstuck k (le_refl k) (by simp [hacquires])
  | true =>
      have hwaits : ∀ m, k ≤ m → (b.state m).waits i = true := by
        intro m hm
        obtain ⟨e', he', hsame⟩ := hstays m hm
        exact Runtime.waits_iff.mpr ⟨e', he', by rw [hsame]; exact hacquires⟩
      obtain ⟨q, hq, hturn⟩ := hqueues i k (hwaits k (le_refl k))
      have hfewer : ∀ m, q ≤ m →
          Eventually (fun j => False ∨ q ≤ j ∧ stillWaiting b q j < stillWaiting b q m) m := by
        intro m hm
        have hkm : k ≤ m := hq.trans hm
        obtain ⟨p, hp, hen⟩ := hagain m (hk.trans hkm)
        have hwaitsp := hwaits p (hkm.trans hp)
        have hpos := Runtime.permits_of_enabled (enabled_stuttering.mp hen) hwaitsp
        by_contra hsame
        refine hstuck p (hkm.trans hp) (fun j hj _ => ?_)
        refine (permits_kept_or_less hstart (hm.trans hp) hpos ?_ hj).resolve_right ?_
        · exact fun m' j' hm' hmoves hw => hturn m' j' hm' (hwaits m' (hq.trans hm')) hmoves hw
        · intro hless
          have hmonotone := stillWaiting_le_of_le hstart hm hp
          exact hsame ⟨j, hp.trans hj, Or.inr ⟨(hm.trans hp).trans hj, hless.trans_le hmonotone⟩⟩
      obtain ⟨m, -, hfalse⟩ := eventually_of_descent (stillWaiting b q)
        (I := fun m => q ≤ m) (P := fun _ => False) hfewer (le_refl q)
      exact hfalse

end Behavior

/-- The first job runs, the second waits. -/
def oneWaitsRun : List RuntimeLabel := spawnTwo ++ onJob 1 (drive 2) ++ onJob 0 (drive 12)

theorem queue_serves_drivers_both : ∃ b : RuntimeBehavior, b.state 0 = soloRuntime ∧
    (∃ n, (b.state n).waits 1 = true ∧ (b.state n).permits = 0) ∧
    ∀ i, b.Compassionate (driverTurnOf i) := by
  obtain ⟨b, hstart, hfirst, hstate⟩ := bothRun_goes_on
  have hdrivers : ∀ i, b.Just (driverTurnOf i) := by
    intro i
    refine (Behavior.compassionate_of_never (n := bothRun.length) (fun m hm hen => ?_)).just
    rw [hstate m hm] at hen
    exact Runtime.idle_driver (fun e he => (bothEnd_rests he).1) (enabled_stuttering.mp hen)
  have hnobody : ∀ i, bothEnd.waits i = false := by
    intro i
    rw [Runtime.waits]
    cases he : bothEnd.jobs[i]? with
    | none => rfl
    | some e => rw [Option.any_some, (bothEnd_rests he).1]; rfl
  have hqueues : Runtime.Queues b := by
    intro i n _
    refine ⟨max n bothRun.length, Nat.le_max_left _ _, fun m j hm hwaits => ?_⟩
    rw [hstate m ((Nat.le_max_right _ _).trans hm), hnobody] at hwaits
    cases hwaits
  have hqueued : (Transition.run Runtime.step soloRuntime oneWaitsRun).any (fun rt =>
      rt.waits 1 && rt.permits = 0) = true := by
    decide
  have hreached := hfirst oneWaitsRun (onJob 0 (leaveQuietly ++ drive 18 ++ [.pollHandle]) ++
    [.release 0] ++ onJob 1 (drive 10 ++ leaveQuietly ++ drive 18) ++ [.release 1]) rfl
  rw [hreached, Option.any_some, Bool.and_eq_true, decide_eq_true_eq] at hqueued
  exact ⟨b, hstart, ⟨_, hqueued⟩, queue_serves_drivers hstart hdrivers hqueues⟩

end Execra
