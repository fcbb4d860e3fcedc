import Mathlib.Data.Set.Card
import Mathlib.Logic.Relation

/-!
A pool of tasks with a bounded number of slots. A task is submitted, waits for a slot,
runs, and leaves a result; nothing else ever happens to it. The pool says nothing about
who is served next, so it is what every order of service refines.
-/

namespace Execra

/-- How far a task is. -/
inductive TaskStage (ω : Type*) where
  | queued | running
  | done (result : ω)

/-- The tasks that were submitted, each with its stage. -/
abbrev Pool (ι ω : Type*) := ι → Option (TaskStage ω)

namespace Pool

variable {ι ω : Type*} {slots : ℕ} {p q : Pool ι ω} {i j : ι} {stage : TaskStage ω} {r : ω}

/-- Nothing was submitted. -/
def empty : Pool ι ω := fun _ => none

/-- The tasks that occupy a slot. -/
def busy (p : Pool ι ω) : Set ι := {i | p i = some .running}

theorem busy_empty : (empty : Pool ι ω).busy = ∅ := by
  ext i
  simp [busy, empty]

variable [DecidableEq ι]

/-- Task `i` has come to the stage. -/
def enter (p : Pool ι ω) (i : ι) (stage : TaskStage ω) : Pool ι ω :=
  Function.update p i (some stage)

@[simp] theorem enter_self : p.enter i stage i = some stage := Function.update_self i _ p

theorem enter_of_ne (h : j ≠ i) : p.enter i stage j = p j := Function.update_of_ne h _ p

/-- To come to the stage one is at changes nothing. -/
theorem enter_eq_self (h : p i = some stage) : p.enter i stage = p := by
  rw [enter, ← h, Function.update_eq_self]

/-- What can happen in a pool. -/
inductive Step (slots : ℕ) (p : Pool ι ω) : Pool ι ω → Prop where
  | submit (i : ι) (hfresh : p i = none) : Step slots p (p.enter i .queued)
  | start (i : ι) (hqueued : p i = some .queued) (hfree : p.busy.encard < slots) :
      Step slots p (p.enter i .running)
  | finish (i : ι) (r : ω) (hruns : p i = some .running) : Step slots p (p.enter i (.done r))

/-- What can happen in a pool in the course of time. -/
abbrev Steps (slots : ℕ) : Pool ι ω → Pool ι ω → Prop := Relation.ReflTransGen (Step slots)

theorem busy_enter_subset : (p.enter i stage).busy ⊆ insert i p.busy := by
  intro j hj
  by_cases hji : j = i
  · exact Or.inl hji
  · right
    exact (enter_of_ne hji).symm.trans hj

theorem busy_enter_idle (h : stage ≠ .running) : (p.enter i stage).busy ⊆ p.busy := by
  intro j hj
  rcases busy_enter_subset hj with rfl | hbusy
  · have hentered : p.enter j stage j = some .running := hj
    rw [enter_self] at hentered
    exact absurd (Option.some.inj hentered) h
  · exact hbusy

/-- No step takes a slot that there is not. -/
theorem Step.bounded (h : Step slots p q) (hbound : p.busy.encard ≤ slots) :
    q.busy.encard ≤ slots := by
  cases h with
  | submit i hfresh =>
      exact (Set.encard_le_encard (busy_enter_idle (by simp))).trans hbound
  | start i hqueued hfree =>
      calc (p.enter i .running).busy.encard
          ≤ (insert i p.busy).encard := Set.encard_le_encard busy_enter_subset
        _ ≤ p.busy.encard + 1 := Set.encard_insert_le _ _
        _ ≤ slots := Order.add_one_le_of_lt hfree
  | finish i r hruns =>
      exact (Set.encard_le_encard (busy_enter_idle (by simp))).trans hbound

theorem Steps.bounded (h : Steps slots p q) (hbound : p.busy.encard ≤ slots) :
    q.busy.encard ≤ slots := by
  induction h with
  | refl => exact hbound
  | tail _ hstep ih => exact hstep.bounded ih

/-- There are never more tasks at work than slots. -/
theorem bounded_of_empty (h : Steps slots empty q) : q.busy.encard ≤ slots := by
  apply h.bounded
  rw [busy_empty, Set.encard_empty]
  exact zero_le

/-- A result is final. -/
theorem Step.done (h : Step slots p q) (hdone : p i = some (.done r)) :
    q i = some (.done r) := by
  have hother : ∀ {j : ι} {stage : TaskStage ω}, p j ≠ some (.done r) →
      p.enter j stage i = some (.done r) := by
    intro j stage hj
    have hij : i ≠ j := fun hsame => hj (hsame ▸ hdone)
    rw [enter_of_ne hij, hdone]
  cases h with
  | submit j hfresh => exact hother (by simp [hfresh])
  | start j hqueued => exact hother (by simp [hqueued])
  | finish j r' hruns => exact hother (by simp [hruns])

theorem Steps.done (h : Steps slots p q) (hdone : p i = some (.done r)) :
    q i = some (.done r) := by
  induction h with
  | refl => exact hdone
  | tail _ hstep ih => exact hstep.done ih

end Pool

end Execra
