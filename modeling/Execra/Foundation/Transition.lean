import Mathlib.Data.List.Basic
import Mathlib.Tactic.Common

/-!
Labelled transition systems given by an executable partial step function. A
schedule is a list of labels; `run` executes it and stops with `none` at the
first label that is not enabled, so a concrete schedule can be evaluated and
a general one reasoned about by induction on its last step.

`StepsMeet` restricts a schedule step by step, which is how an assumption
about the environment is stated: it speaks about the state before a step and
the label taken there, never about what the step returns.
-/

namespace Execra.Transition

variable {σ ℓ : Type*}

/-- Executes the labels of a schedule in order. -/
def run (step : σ → ℓ → Option σ) : σ → List ℓ → Option σ
  | s, [] => some s
  | s, l :: ls => (step s l).bind (fun t => run step t ls)

/-- Every step of the schedule is taken in a state and with a label that
satisfy `P`. -/
def StepsMeet (step : σ → ℓ → Option σ) (P : σ → ℓ → Prop) : σ → List ℓ → Prop
  | _, [] => True
  | s, l :: ls => P s l ∧ ∀ t, step s l = some t → StepsMeet step P t ls

variable {step : σ → ℓ → Option σ} {P Q : σ → ℓ → Prop}

@[simp] theorem run_nil (s : σ) : run step s [] = some s := rfl

theorem run_cons (s : σ) (l : ℓ) (ls : List ℓ) :
    run step s (l :: ls) = (step s l).bind (fun t => run step t ls) := rfl

theorem run_append (s : σ) (first second : List ℓ) :
    run step s (first ++ second) =
      (run step s first).bind (fun t => run step t second) := by
  induction first generalizing s with
  | nil => rfl
  | cons l ls ih =>
      simp only [List.cons_append, run_cons]
      cases hstep : step s l with
      | none => rfl
      | some t => exact ih t

theorem run_snoc_iff (s t : σ) (ls : List ℓ) (l : ℓ) :
    run step s (ls ++ [l]) = some t ↔
      ∃ m, run step s ls = some m ∧ step m l = some t := by
  rw [run_append, Option.bind_eq_some_iff]
  simp [run_cons]

/-- A condition that holds of every state and label restricts nothing. -/
theorem stepsMeet_of_forall (h : ∀ s l, P s l) (s : σ) (ls : List ℓ) :
    StepsMeet step P s ls := by
  induction ls generalizing s with
  | nil => trivial
  | cons l ls ih => exact ⟨h s l, fun t _ => ih t⟩

/-- A condition on the labels alone. -/
theorem stepsMeet_of_labels {Q : ℓ → Prop} {ls : List ℓ} (h : ∀ l ∈ ls, Q l) (s : σ) :
    StepsMeet step (fun _ l => Q l) s ls := by
  induction ls generalizing s with
  | nil => trivial
  | cons l ls ih =>
      obtain ⟨hl, hrest⟩ := List.forall_mem_cons.mp h
      exact ⟨hl, fun t _ => ih hrest t⟩

theorem StepsMeet.snoc {s m : σ} {ls : List ℓ} {l : ℓ} (h : StepsMeet step P s ls)
    (hrun : run step s ls = some m) (hl : P m l) : StepsMeet step P s (ls ++ [l]) := by
  induction ls generalizing s with
  | nil =>
      simp only [run_nil, Option.some.injEq] at hrun
      subst hrun
      exact ⟨hl, fun _ _ => trivial⟩
  | cons l' ls ih =>
      rw [run_cons, Option.bind_eq_some_iff] at hrun
      obtain ⟨t, hstep, hrest⟩ := hrun
      refine ⟨h.1, fun t' ht' => ?_⟩
      have hsame : t' = t := Option.some.inj (ht'.symm.trans hstep)
      exact ih (h.2 t' ht') (hsame ▸ hrest)

/-- A schedule meets a condition if it is met wherever a label is taken. -/
theorem stepsMeet_iff {s : σ} {ls : List ℓ} : StepsMeet step P s ls ↔
    ∀ done l rest m, ls = done ++ l :: rest → run step s done = some m → P m l := by
  induction ls generalizing s with
  | nil =>
      refine iff_of_true trivial (fun done l rest m hsplit => ?_)
      cases done <;> cases hsplit
  | cons l ls ih =>
      constructor
      · rintro ⟨hl, hrest⟩ done l' rest m hsplit hrun
        cases done with
        | nil =>
            cases hsplit
            simp only [run_nil, Option.some.injEq] at hrun
            exact hrun ▸ hl
        | cons d done =>
            cases hsplit
            rw [run_cons, Option.bind_eq_some_iff] at hrun
            obtain ⟨t, ht, hrun⟩ := hrun
            exact ih.mp (hrest t ht) done l' rest m rfl hrun
      · intro h
        refine ⟨h [] l ls s rfl rfl, fun t ht => ih.mpr (fun done l' rest m hsplit hrun => ?_)⟩
        exact h (l :: done) l' rest m (by rw [hsplit]; rfl) (by rw [run_cons, ht]; exact hrun)

/-- The parts of a schedule that meets a condition. -/
theorem StepsMeet.append {s m : σ} {first second : List ℓ}
    (h : StepsMeet step P s (first ++ second)) (hrun : run step s first = some m) :
    StepsMeet step P s first ∧ StepsMeet step P m second := by
  rw [stepsMeet_iff] at h
  refine ⟨stepsMeet_iff.mpr (fun done l rest t hsplit ht => ?_),
    stepsMeet_iff.mpr (fun done l rest t hsplit ht => ?_)⟩
  · exact h done l (rest ++ second) t (by rw [hsplit]; simp) ht
  · refine h (first ++ done) l rest t (by rw [hsplit]; simp) ?_
    rw [run_append, hrun]
    exact ht

theorem stepsMeet_snoc_iff {s m : σ} {ls : List ℓ} {l : ℓ} (hrun : run step s ls = some m) :
    StepsMeet step P s (ls ++ [l]) ↔ StepsMeet step P s ls ∧ P m l :=
  ⟨fun h => ⟨(h.append hrun).1, (h.append hrun).2.1⟩, fun h => h.1.snoc hrun h.2⟩

/-- Whether a concrete schedule meets a condition can be evaluated. -/
instance decidableStepsMeet [∀ s l, Decidable (P s l)] :
    (s : σ) → (ls : List ℓ) → Decidable (StepsMeet step P s ls)
  | _, [] => isTrue trivial
  | s, l :: ls =>
      match hstep : step s l with
      | none => decidable_of_iff (P s l) (by simp [StepsMeet, hstep])
      | some t =>
          have := decidableStepsMeet t ls
          decidable_of_iff (P s l ∧ StepsMeet step P t ls) (by simp [StepsMeet, hstep])

private theorem run_induction_from (motive : List ℓ → σ → Prop)
    (extend : ∀ done m l t, motive done m → P m l → step m l = some t →
      motive (done ++ [l]) t)
    (done ls : List ℓ) (s t : σ) (hs : motive done s)
    (hmeet : StepsMeet step P s ls) (hrun : run step s ls = some t) :
    motive (done ++ ls) t := by
  induction ls generalizing done s with
  | nil =>
      simp only [run_nil, Option.some.injEq] at hrun
      subst hrun
      simpa using hs
  | cons l ls ih =>
      rw [run_cons, Option.bind_eq_some_iff] at hrun
      obtain ⟨m, hstep, hrest⟩ := hrun
      have hnext := extend done s l m hs hmeet.1 hstep
      simpa using ih (done ++ [l]) m hnext (hmeet.2 m hstep) hrest

/-- Induction over a run, with the labels taken so far in view. -/
theorem run_induction (motive : List ℓ → σ → Prop) {s : σ} (start : motive [] s)
    (extend : ∀ done m l t, motive done m → P m l → step m l = some t →
      motive (done ++ [l]) t)
    {ls : List ℓ} {t : σ} (hmeet : StepsMeet step P s ls)
    (hrun : run step s ls = some t) : motive ls t := by
  simpa using run_induction_from motive extend [] ls s t start hmeet hrun

/-- The same rule, with the run so far in view as well. -/
theorem run_induction_reached (motive : List ℓ → σ → Prop) {s : σ} (start : motive [] s)
    (extend : ∀ done m l t, run step s done = some m → motive done m → P m l →
      step m l = some t → motive (done ++ [l]) t)
    {ls : List ℓ} {t : σ} (hmeet : StepsMeet step P s ls)
    (hrun : run step s ls = some t) : motive ls t := by
  have hboth : run step s ls = some t ∧ motive ls t := by
    refine run_induction (fun done m => run step s done = some m ∧ motive done m)
      ⟨rfl, start⟩ ?_ hmeet hrun
    rintro done m l t ⟨hm, hI⟩ hP ht
    exact ⟨(run_snoc_iff _ _ _ _).mpr ⟨m, hm, ht⟩, extend done m l t hm hI hP ht⟩
  exact hboth.2

/-- A state predicate kept by every admissible step holds along the run. -/
theorem invariant_of_run {I : σ → Prop}
    (hstep : ∀ s l t, I s → P s l → step s l = some t → I t)
    {s t : σ} {ls : List ℓ} (hs : I s) (hmeet : StepsMeet step P s ls)
    (hrun : run step s ls = some t) : I t :=
  run_induction (fun _ u => I u) hs (fun _ m l u hm hP hu => hstep m l u hm hP hu)
    hmeet hrun

/-- What an observer of the steps of a schedule collects, up to the first label
that is not enabled. -/
def observe {β : Type*} (step : σ → ℓ → Option σ) (f : σ → ℓ → List β) : σ → List ℓ → List β
  | _, [] => []
  | s, l :: ls =>
      f s l ++ match step s l with
        | none => []
        | some t => observe step f t ls

theorem observe_append {β : Type*} (f : σ → ℓ → List β) {s m : σ} {first : List ℓ}
    (hrun : run step s first = some m) (second : List ℓ) :
    observe step f s (first ++ second) = observe step f s first ++ observe step f m second := by
  induction first generalizing s with
  | nil =>
      simp only [run_nil, Option.some.injEq] at hrun
      subst hrun
      rfl
  | cons l first ih =>
      rw [run_cons, Option.bind_eq_some_iff] at hrun
      obtain ⟨t, hstep, hrest⟩ := hrun
      simp [observe, hstep, ih hrest]

theorem observe_snoc {β : Type*} (f : σ → ℓ → List β) {s m : σ} {ls : List ℓ}
    (hrun : run step s ls = some m) (l : ℓ) :
    observe step f s (ls ++ [l]) = observe step f s ls ++ f m l := by
  rw [observe_append f hrun]
  cases hstep : step m l <;> simp [observe, hstep]

/-- The states some schedule leads to. -/
def Reachable (step : σ → ℓ → Option σ) (start s : σ) : Prop :=
  ∃ ls, run step start ls = some s

theorem Reachable.refl (s : σ) : Reachable step s s := ⟨[], rfl⟩

theorem Reachable.extend {start s t : σ} {l : ℓ} (hs : Reachable step start s)
    (hstep : step s l = some t) : Reachable step start t := by
  obtain ⟨ls, hls⟩ := hs
  exact ⟨ls ++ [l], (run_snoc_iff start t ls l).mpr ⟨s, hls, hstep⟩⟩

/-- The state a schedule that can be executed leads to. -/
def endOf (step : σ → ℓ → Option σ) (start : σ) (ls : List ℓ)
    (h : (run step start ls).isSome = true) : σ := (run step start ls).get h

theorem run_endOf (start : σ) (ls : List ℓ) (h : (run step start ls).isSome = true) :
    run step start ls = some (endOf step start ls h) := (Option.some_get h).symm

theorem reachable_endOf (start : σ) (ls : List ℓ) (h : (run step start ls).isSome = true) :
    Reachable step start (endOf step start ls h) := ⟨ls, run_endOf start ls h⟩

/-- The invariant rule: initial and kept by every step, hence everywhere. -/
theorem Reachable.invariant {I : σ → Prop} {start s : σ}
    (hs : Reachable step start s) (hstart : I start)
    (hstep : ∀ s l t, I s → step s l = some t → I t) : I s := by
  obtain ⟨ls, hls⟩ := hs
  exact invariant_of_run (P := fun _ _ => True)
    (fun s l t hI _ ht => hstep s l t hI ht) hstart
    (stepsMeet_of_forall (fun _ _ => trivial) _ _) hls

end Execra.Transition
