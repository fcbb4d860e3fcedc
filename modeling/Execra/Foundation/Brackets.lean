import Execra.Foundation.Transition
import Mathlib.Data.List.Perm.Basic
import Mathlib.Data.List.Nodup

/-!
Words of named brackets, over any set of names: a bracket is entered and left
under its name, and between the two the word may refer to it. `Nested` is the
grammar of the well-nested words; `scan` is the stack machine that recognises
them, and leaves every bracket it entered exactly once.
-/

namespace Execra.Brackets

variable {ι : Type*}

inductive Bracket (ι : Type*) where
  | enter (i : ι)
  | inside (i : ι)
  | leave (i : ι)
deriving DecidableEq, Repr

/-- Well-nested words, inside the bracket `c` if there is one: only the
innermost bracket is referred to or left. -/
inductive Nested : Option ι → List (Bracket ι) → Prop where
  | nil (c) : Nested c []
  | inside (i w) (h : Nested (some i) w) : Nested (some i) (.inside i :: w)
  | bracket (c i u w) (hinner : Nested (some i) u) (houter : Nested c w) :
      Nested c (.enter i :: (u ++ .leave i :: w))

/-- The names a word enters, and the names it leaves. -/
def entered (w : List (Bracket ι)) : List ι :=
  w.filterMap (fun | .enter i => some i | _ => none)

def left (w : List (Bracket ι)) : List ι :=
  w.filterMap (fun | .leave i => some i | _ => none)

@[simp] theorem entered_append (u w : List (Bracket ι)) :
    entered (u ++ w) = entered u ++ entered w := List.filterMap_append ..

/-- A well-nested word leaves what it enters. -/
theorem Nested.perm {c : Option ι} {w : List (Bracket ι)} (h : Nested c w) :
    (entered w).Perm (left w) := by
  induction h with
  | nil c => exact .refl _
  | inside i w _ ih => simpa [entered, left] using ih
  | bracket c i u w _ _ ihu ihw =>
      have hsplit : (i :: (entered u ++ entered w)).Perm (i :: (left u ++ left w)) :=
        (ihu.append ihw).cons i
      have hmove : (i :: (left u ++ left w)).Perm (left u ++ i :: left w) :=
        List.perm_middle.symm
      simpa [entered, left] using hsplit.trans hmove

variable [DecidableEq ι]

/-- With names that are not used twice, every bracket is left exactly once. -/
theorem Nested.left_once {c : Option ι} {w : List (Bracket ι)} (h : Nested c w)
    (hfresh : (entered w).Nodup) {i : ι} (hi : i ∈ entered w) : (left w).count i = 1 := by
  rw [← h.perm.count_eq]
  exact List.count_eq_one_of_mem hfresh hi

/-- The stack machine: the names of the open brackets, innermost first. -/
def scan : List ι → Bracket ι → Option (List ι)
  | stack, .enter i => some (i :: stack)
  | top :: rest, .inside i => if i = top then some (top :: rest) else none
  | top :: rest, .leave i => if i = top then some rest else none
  | [], _ => none

/-- What a word that empties the stack looks like: up to the leaving of the
top it is nested in the top, and so on below. -/
def Empties : List ι → List (Bracket ι) → Prop
  | [], w => Nested none w
  | top :: rest, w =>
      ∃ u v, w = u ++ .leave top :: v ∧ Nested (some top) u ∧
        Transition.run scan rest v = some []

private theorem empties_cons {stack : List ι} {i : ι} {u v : List (Bracket ι)}
    (hu : Nested (some i) u) (hv : Empties stack v) :
    Empties stack (.enter i :: (u ++ .leave i :: v)) := by
  cases stack with
  | nil => exact .bracket none i u v hu hv
  | cons top rest =>
      obtain ⟨u', v', rfl, hu', hrun⟩ := hv
      exact ⟨.enter i :: (u ++ .leave i :: u'), v', by simp, .bracket _ i u u' hu hu', hrun⟩

theorem empties_of_run (w : List (Bracket ι)) (stack : List ι)
    (h : Transition.run scan stack w = some []) : Empties stack w := by
  induction hn : w.length using Nat.strongRecOn generalizing w stack with
  | _ n ih =>
      subst hn
      cases w with
      | nil =>
          cases Option.some.inj h
          exact .nil none
      | cons b w =>
          rw [Transition.run_cons, Option.bind_eq_some_iff] at h
          obtain ⟨next, hstep, hrest⟩ := h
          cases b with
          | enter i =>
              simp only [scan, Option.some.injEq] at hstep
              subst hstep
              obtain ⟨u, v, rfl, hu, hrun⟩ := ih _ (by simp) w _ hrest rfl
              exact empties_cons hu (ih v.length (by simp; omega) v stack hrun rfl)
          | inside i =>
              cases stack with
              | nil => cases hstep
              | cons top rest =>
                  simp only [scan, Option.ite_none_right_eq_some, Option.some.injEq] at hstep
                  obtain ⟨rfl, rfl⟩ := hstep
                  obtain ⟨u, v, rfl, hu, hrun⟩ := ih _ (by simp) w _ hrest rfl
                  exact ⟨.inside i :: u, v, rfl, .inside i u hu, hrun⟩
          | leave i =>
              cases stack with
              | nil => cases hstep
              | cons top rest =>
                  simp only [scan, Option.ite_none_right_eq_some, Option.some.injEq] at hstep
                  obtain ⟨rfl, rfl⟩ := hstep
                  exact ⟨[], w, rfl, .nil _, hrest⟩

/-- The stack machine accepts only well-nested words. -/
theorem nested_of_run {w : List (Bracket ι)} (h : Transition.run scan [] w = some []) :
    Nested none w := empties_of_run w [] h

end Execra.Brackets
