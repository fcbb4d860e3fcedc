import Execra.Foundation.Transition
import Mathlib.Order.WellFounded

/-!
Runs that never end, and what fairness makes of them. A statement about such a
run is a predicate of moments. `Eventually` says that a predicate holds at this
moment or at a later one. There are two rules of progress: nothing is lost while
one waits for a moment that is bound to come (`Eventually.keeping`), and a rank
cannot fall for ever (`eventually_of_descent`).

A class of labels is taken justly if it does not stay enabled for ever without
being taken, and compassionately if it is not enabled again and again without
being taken.
-/

namespace Execra.Transition

/-- At the moment `n` or at a later one. -/
def Eventually (P : ℕ → Prop) (n : ℕ) : Prop := ∃ m, n ≤ m ∧ P m

section Eventually

variable {P Q : ℕ → Prop} {n : ℕ}

theorem Eventually.now (h : P n) : Eventually P n := ⟨n, le_refl n, h⟩

theorem Eventually.earlier {m : ℕ} (hle : n ≤ m) (h : Eventually P m) : Eventually P n := by
  obtain ⟨k, hk, hP⟩ := h
  exact ⟨k, hle.trans hk, hP⟩

/-- What is bound to come once `P` holds is bound to come if `P` is. -/
theorem Eventually.bind (h : Eventually P n) (hPQ : ∀ m, n ≤ m → P m → Eventually Q m) :
    Eventually Q n := by
  obtain ⟨m, hm, hP⟩ := h
  exact (hPQ m hm hP).earlier hm

theorem Eventually.mono (h : Eventually P n) (hPQ : ∀ m, n ≤ m → P m → Q m) :
    Eventually Q n :=
  h.bind (fun m hm hP => .now (hPQ m hm hP))

theorem Eventually.shift {k : ℕ} :
    Eventually (fun m => P (n + m)) k ↔ Eventually P (n + k) := by
  constructor
  · rintro ⟨m, hm, hP⟩
    exact ⟨n + m, by omega, hP⟩
  · rintro ⟨m, hm, hP⟩
    obtain ⟨d, rfl⟩ := Nat.exists_eq_add_of_le (show n ≤ m by omega)
    exact ⟨d, by omega, hP⟩

/-- What is never lost once it holds. -/
def Stable (P : ℕ → Prop) : Prop := ∀ n, P n → P (n + 1)

theorem Stable.le (hstable : Stable P) {m : ℕ} (hle : n ≤ m) (h : P n) : P m := by
  induction m, hle using Nat.le_induction with
  | base => exact h
  | succ m _ ih => exact hstable m ih

/-- What holds now and is kept as long as `P` does not hold is still there when
`P` comes. -/
theorem Eventually.keeping (h : Eventually P n) (hQ : Q n)
    (hkeep : ∀ m, n ≤ m → Q m → ¬P m → Q (m + 1)) : Eventually (fun m => P m ∧ Q m) n := by
  obtain ⟨m, hm, hP⟩ := h
  obtain ⟨d, rfl⟩ := Nat.exists_eq_add_of_le hm
  clear hm
  induction d generalizing n with
  | zero => exact .now ⟨hP, hQ⟩
  | succ d ih =>
      by_cases hnow : P n
      · exact .now ⟨hnow, hQ⟩
      · have hnext := ih (hkeep n (le_refl n) hQ hnow) (fun m hm => hkeep m (by omega))
          (by rwa [Nat.add_right_comm])
        exact hnext.earlier (Nat.le_succ n)

/-- A rank that falls until `P` holds brings `P` about. -/
theorem eventually_of_descent {W : Type*} [LT W] [WellFoundedLT W] (rank : ℕ → W)
    {I : ℕ → Prop} (hfall : ∀ n, I n →
      Eventually (fun m => P m ∨ I m ∧ rank m < rank n) n)
    (hI : I n) : Eventually P n := by
  suffices h : ∀ w n, rank n = w → I n → Eventually P n from h _ n rfl hI
  intro w
  induction w using WellFoundedLT.induction with
  | ind w ih =>
      rintro n rfl hI
      refine (hfall n hI).bind (fun m _ hm => ?_)
      rcases hm with hP | ⟨hIm, hlt⟩
      · exact .now hP
      · exact ih _ hlt m rfl hIm

end Eventually

variable {σ ℓ : Type*}

/-- A run that never ends. -/
structure Behavior (step : σ → ℓ → Option σ) where
  state : ℕ → σ
  label : ℕ → ℓ
  next : ∀ n, step (state n) (label n) = some (state (n + 1))

variable {step : σ → ℓ → Option σ}

/-- Some label of the class can be taken. -/
def Enabled (step : σ → ℓ → Option σ) (A : ℓ → Prop) (s : σ) : Prop :=
  ∃ l, A l ∧ (step s l).isSome

namespace Behavior

variable (b : Behavior step)

/-- A class that stays enabled is taken. -/
def Just (A : ℓ → Prop) : Prop :=
  ∀ n, Eventually (fun m => A (b.label m) ∨ ¬Enabled step A (b.state m)) n

/-- A class that is enabled again and again is taken. -/
def Compassionate (A : ℓ → Prop) : Prop :=
  ∀ n, (∀ m, n ≤ m → Eventually (fun k => Enabled step A (b.state k)) m) →
    Eventually (fun m => A (b.label m)) n

variable {b}

/-- Compassion includes justice. -/
theorem Compassionate.just {A : ℓ → Prop} (h : b.Compassionate A) : b.Just A := by
  intro n
  by_contra hnever
  have hen : ∀ m, n ≤ m → Enabled step A (b.state m) := by
    intro m hm
    by_contra hdisabled
    exact hnever ⟨m, hm, Or.inr hdisabled⟩
  obtain ⟨m, hm, htaken⟩ := h n (fun m hm => .now (hen m hm))
  exact hnever ⟨m, hm, Or.inl htaken⟩

/-- The turn of a class comes while `Q` holds, if only the class can end `Q` and `Q`
enables it from some moment on. -/
theorem Just.turn {A : ℓ → Prop} (h : b.Just A) {Q : ℕ → Prop} {n : ℕ} (hQ : Q n)
    (hkeep : ∀ m, n ≤ m → Q m → ¬A (b.label m) → Q (m + 1))
    (hen : Eventually (fun k => ∀ j, k ≤ j → Q j → Enabled step A (b.state j)) n) :
    Eventually (fun m => A (b.label m) ∧ Q m) n := by
  obtain ⟨k, hk, henabled⟩ := hen
  have hsoon : Eventually
      (fun m => A (b.label m) ∨ k ≤ m ∧ ¬Enabled step A (b.state m)) n :=
    ((h k).mono (fun m hm => Or.imp_right (fun hstuck => ⟨hm, hstuck⟩))).earlier hk
  have hkept := hsoon.keeping hQ (fun m hm hQm hrest => hkeep m hm hQm (hrest ∘ Or.inl))
  refine hkept.mono (fun m _ hboth => ⟨?_, hboth.2⟩)
  exact hboth.1.resolve_right (fun hstuck => hstuck.2 (henabled m hstuck.1 hboth.2))

theorem reachable (n : ℕ) : Reachable step (b.state 0) (b.state n) := by
  induction n with
  | zero => exact .refl _
  | succ n ih => exact ih.extend (b.next n)

/-- The run from a later moment on. -/
def drop (b : Behavior step) (n : ℕ) : Behavior step where
  state m := b.state (n + m)
  label m := b.label (n + m)
  next m := b.next (n + m)

/-- A class that is never enabled again is taken with compassion. -/
theorem compassionate_of_never {A : ℓ → Prop} {n : ℕ}
    (hnever : ∀ m, n ≤ m → ¬Enabled step A (b.state m)) : b.Compassionate A := by
  intro k hagain
  obtain ⟨m, hm, hen⟩ := hagain (max k n) (Nat.le_max_left _ _)
  exact absurd hen (hnever m (by omega))

/-- A step that changes nothing, taken for ever. -/
def constant {s : σ} {l : ℓ} (h : step s l = some s) : Behavior step where
  state _ := s
  label _ := l
  next _ := h

/-- A step before a run. -/
def cons (b : Behavior step) {s : σ} {l : ℓ} (h : step s l = some (b.state 0)) :
    Behavior step where
  state
    | 0 => s
    | n + 1 => b.state n
  label
    | 0 => l
    | n + 1 => b.label n
  next
    | 0 => h
    | n + 1 => b.next n

theorem Just.cons {A : ℓ → Prop} (h : b.Just A) {s : σ} {l : ℓ}
    (hstep : step s l = some (b.state 0)) : (b.cons hstep).Just A := by
  intro n
  obtain ⟨m, hm, hnow⟩ := h n
  exact ⟨m + 1, by omega, hnow⟩

theorem Compassionate.cons {A : ℓ → Prop} (h : b.Compassionate A) {s : σ} {l : ℓ}
    (hstep : step s l = some (b.state 0)) : (b.cons hstep).Compassionate A := by
  intro n hagain
  obtain ⟨m, hm, htaken⟩ := h n (fun m hm => by
    obtain ⟨k, hk, hen⟩ := hagain (m + 1) (by omega)
    obtain ⟨k, rfl⟩ := Nat.exists_eq_add_of_le' (show 1 ≤ k by omega)
    exact ⟨k, by omega, hen⟩)
  exact ⟨m + 1, by omega, htaken⟩

/-- A schedule that leads to the start of a run that never ends is the beginning of one. -/
theorem exists_prepended (b : Behavior step) {s : σ} {ls : List ℓ}
    (hrun : run step s ls = some (b.state 0)) :
    ∃ b' : Behavior step, b'.state 0 = s ∧
      (∀ first rest, ls = first ++ rest → run step s first = some (b'.state first.length)) ∧
      ∀ n, b'.state (ls.length + n) = b.state n ∧ b'.label (ls.length + n) = b.label n := by
  induction ls generalizing s with
  | nil =>
      obtain rfl := Option.some.inj hrun
      refine ⟨b, rfl, fun first rest hls => ?_, fun n => ?_⟩
      · obtain ⟨rfl, -⟩ := List.append_eq_nil_iff.mp hls.symm
        rfl
      · rw [List.length_nil, Nat.zero_add]
        exact ⟨rfl, rfl⟩
  | cons l ls ih =>
      rw [run_cons, Option.bind_eq_some_iff] at hrun
      obtain ⟨m, hstep, hrest⟩ := hrun
      obtain ⟨b', rfl, hfirst, hb'⟩ := ih hrest
      refine ⟨b'.cons hstep, rfl, fun first rest hls => ?_, fun n => ?_⟩
      · cases first with
        | nil => rfl
        | cons l' first =>
            obtain ⟨rfl, hsplit⟩ := List.cons.inj hls
            rw [run_cons, hstep]
            exact hfirst first rest hsplit
      · rw [List.length_cons, Nat.add_right_comm]
        exact hb' n

end Behavior

/-- The same transitions, and moments at which nothing happens. -/
def stuttering (step : σ → ℓ → Option σ) (s : σ) : Option ℓ → Option σ
  | none => some s
  | some l => step s l

theorem Reachable.of_stuttering {start s : σ} (h : Reachable (stuttering step) start s) :
    Reachable step start s := by
  refine h.invariant (.refl start) (fun s l t hs hstep => ?_)
  cases l with
  | none => exact Option.some.inj hstep ▸ hs
  | some l => exact hs.extend hstep

theorem run_stuttering (s : σ) (ls : List ℓ) :
    run (stuttering step) s (ls.map some) = run step s ls := by
  induction ls generalizing s with
  | nil => rfl
  | cons l ls ih =>
      rw [List.map_cons, run_cons, run_cons]
      exact congrArg _ (funext ih)

/-- A class of labels, among moments at which nothing happens. -/
def taking (A : ℓ → Prop) : Option ℓ → Prop
  | none => False
  | some l => A l

theorem eq_of_taking {A : ℓ → Prop} {l : Option ℓ} (h : taking A l) :
    ∃ own, l = some own ∧ A own := by
  cases l with
  | none => exact h.elim
  | some own => exact ⟨own, rfl, h⟩

theorem enabled_stuttering {A : ℓ → Prop} {s : σ} :
    Enabled (stuttering step) (taking A) s ↔ Enabled step A s := by
  constructor
  · rintro ⟨l, hl, hstep⟩
    obtain ⟨own, rfl, hown⟩ := eq_of_taking hl
    exact ⟨own, hown, hstep⟩
  · rintro ⟨l, hl, hstep⟩
    exact ⟨some l, hl, hstep⟩

/-- A run without idle moments. -/
def Behavior.stuttered (b : Behavior step) : Behavior (stuttering step) where
  state := b.state
  label n := some (b.label n)
  next := b.next

theorem Behavior.Just.stuttered {b : Behavior step} {A : ℓ → Prop} (h : b.Just A) :
    b.stuttered.Just (taking A) := by
  intro n
  refine (h n).mono (fun m _ hm => hm.imp_right (fun hstuck hen => ?_))
  exact hstuck (enabled_stuttering.mp hen)

section Simulation

variable {τ ℓ' : Type*} {step' : τ → ℓ' → Option τ}

/-- A simulation carries a run that never ends over to the other system. -/
theorem Behavior.exists_image (b : Behavior step) (R : σ → τ → Prop) (L : ℓ → ℓ' → Prop)
    (hsim : ∀ n t, R (b.state n) t → ∃ l' t', L (b.label n) l' ∧ step' t l' = some t' ∧
      R (b.state (n + 1)) t')
    {t : τ} (ht : R (b.state 0) t) :
    ∃ b' : Behavior step', b'.state 0 = t ∧
      ∀ n, R (b.state n) (b'.state n) ∧ L (b.label n) (b'.label n) := by
  choose label next hlabel hstep hnext using hsim
  let image (n : ℕ) : { t // R (b.state n) t } :=
    Nat.rec ⟨t, ht⟩ (fun n found => ⟨next n found.1 found.2, hnext n found.1 found.2⟩) n
  refine ⟨⟨fun n => (image n).1, fun n => label n _ (image n).2, fun n => ?_⟩, rfl, fun n => ?_⟩
  · exact hstep n _ (image n).2
  · exact ⟨(image n).2, hlabel n _ (image n).2⟩

end Simulation

end Execra.Transition
