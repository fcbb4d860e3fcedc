import Execra.Model.Rounding
import Mathlib.Dynamics.FixedPoints.Basic
import Mathlib.Tactic.Linarith
import Mathlib.Tactic.NormNum
import Mathlib.Data.Rat.Floor

/-!
The ticker of a phase without a signal of its own, with the arithmetic of rational
numbers. A tick takes a fixed share of what is left up to a cap that lies before the
end of the phase; so what is left shrinks geometrically, and the ticker stops as soon
as it is small.
-/

namespace Execra

/-! Rounding to whole numbers keeps the order. -/

theorem roundTiesAway_mono {p q : ℚ} (h : p ≤ q) : roundTiesAway p ≤ roundTiesAway q := by
  unfold roundTiesAway
  by_cases hp : 0 ≤ p
  · rw [if_pos hp, if_pos (le_trans hp h)]
    apply Rat.floor_monotone
    linarith
  · rw [if_neg hp]
    by_cases hq : 0 ≤ q
    · rw [if_pos hq]
      have hleft : (0 : ℤ) ≤ (-p + 1 / 2).floor := Rat.le_floor_iff.mpr (by push_cast; linarith)
      have hright : (0 : ℤ) ≤ (q + 1 / 2).floor := Rat.le_floor_iff.mpr (by push_cast; linarith)
      omega
    · rw [if_neg hq]
      have hfloor : (-q + 1 / 2).floor ≤ (-p + 1 / 2).floor :=
        Rat.floor_monotone (by linarith)
      omega

/-- The whole percent that a fraction is shown as. -/
def percent (value : F32) : Int := (value.mulBy .exact (.finite 100)).roundToI32

theorem percent_mono {p q : ℚ} (h : p ≤ q) : percent (.finite p) ≤ percent (.finite q) := by
  have hround : roundTiesAway (p * 100) ≤ roundTiesAway (q * 100) :=
    roundTiesAway_mono (by linarith)
  exact max_le_max_left _ (min_le_min_right _ hround)

namespace CreepState

/-- The state of the ticker after a number of ticks. -/
def after (cs : CreepState) (n : Nat) : CreepState := (fun cs => (cs.tickBy .exact).2)^[n] cs

/-- What the tick after `n` others returns. -/
def returned (cs : CreepState) (n : Nat) : Option F32 := ((cs.after n).tickBy .exact).1

theorem after_succ (cs : CreepState) (n : Nat) :
    cs.after (n + 1) = ((cs.after n).tickBy .exact).2 :=
  Function.iterate_succ_apply' _ n cs

/-- The ticker is between the start of its phase and the cap. -/
structure Within (start cap : ℚ) (cs : CreepState) (cur : ℚ) : Prop where
  capped : cs.cap = .finite cap
  at_cur : cs.cur = .finite cur
  low : start ≤ cur
  high : cur ≤ cap

/-- What a tick does. -/
inductive Ticks (cap cur : ℚ) : Bool → Option F32 × CreepState → Prop where
  | stopped : Ticks cap cur true (none, ⟨.finite cap, .finite cur, true⟩)
  | finished : Ticks cap cur false (none, ⟨.finite cap, .finite cur, true⟩)
  | eased (next) (hfar : cur + 1 / 10000 < cap) (hnext : next = cur + (cap - cur) * (2 / 100)) :
      Ticks cap cur false
        (if percent (.finite next) = percent (.finite cur) then none else some (.finite next),
          ⟨.finite cap, .finite next, false⟩)

variable {start cap cur : ℚ} {cs : CreepState}

theorem tickBy_near (hnear : cap ≤ cur + 1 / 10000) :
    tickBy .exact ⟨.finite cap, .finite cur, false⟩ =
      (none, ⟨.finite cap, .finite cur, true⟩) := by
  have hle : F32.le (.finite cap) (.finite (cur + 1 / 10000)) = true := by
    simpa [F32.le, F32.lt] using hnear
  exact if_pos hle

theorem tickBy_far (hfar : cur + 1 / 10000 < cap) :
    tickBy .exact ⟨.finite cap, .finite cur, false⟩ =
      (if percent (.finite (cur + (cap - cur) * (2 / 100))) = percent (.finite cur) then none
        else some (.finite (cur + (cap - cur) * (2 / 100))),
        ⟨.finite cap, .finite (cur + (cap - cur) * (2 / 100)), false⟩) := by
  have hle : ¬ F32.le (.finite cap) (.finite (cur + 1 / 10000)) = true := by
    simpa [F32.le, F32.lt] using hfar
  have hmin : F32.min (.finite (cur + (cap + -cur) * (2 / 100))) (.finite cap) =
      .finite (cur + (cap - cur) * (2 / 100)) := by
    have hroom : ¬ cap < cur + (cap + -cur) * (2 / 100) := by linarith
    simp [F32.min, F32.lt, hroom, sub_eq_add_neg]
  rw [← hmin]
  exact if_neg hle

theorem Within.ticks (h : cs.Within start cap cur) : Ticks cap cur cs.done (cs.tickBy .exact) := by
  obtain ⟨cap', cur', done⟩ := cs
  obtain ⟨hcap, hcur, -, -⟩ := h
  cases hcap
  cases hcur
  cases done with
  | true => exact .stopped
  | false =>
      rcases le_or_gt cap (cur + 1 / 10000) with hnear | hfar
      · rw [tickBy_near hnear]
        exact .finished
      · rw [tickBy_far hfar]
        exact .eased _ hfar rfl

/-- A tick keeps the ticker within its bounds and never moves it back; and it ends the
ticker, or leaves less than before. -/
theorem Within.tick (h : cs.Within start cap cur) :
    ∃ next, (cs.tickBy .exact).2.Within start cap next ∧ cur ≤ next ∧
      ((cs.tickBy .exact).2.done = true ∨
        cap - next = 98 / 100 * (cap - cur) ∧ cur + 1 / 10000 < cap) := by
  have hticks := h.ticks
  have hlow := h.low
  have hhigh := h.high
  generalize cs.tickBy .exact = ticked at hticks ⊢
  generalize cs.done = done at hticks
  cases hticks with
  | stopped | finished => exact ⟨cur, ⟨rfl, rfl, hlow, hhigh⟩, le_refl cur, .inl rfl⟩
  | eased next hfar hnext =>
      refine ⟨next, ⟨rfl, rfl, ?_, ?_⟩, ?_, .inr ⟨?_, hfar⟩⟩
      all_goals linarith

/-- A fraction that is returned is the new place, and shown as a larger percent than the
place before. -/
theorem Within.returns (h : cs.Within start cap cur) {value : F32}
    (hvalue : (cs.tickBy .exact).1 = some value) :
    value = (cs.tickBy .exact).2.cur ∧ percent cs.cur < percent value := by
  have hticks := h.ticks
  rw [h.at_cur]
  generalize cs.tickBy .exact = ticked at hticks hvalue ⊢
  generalize cs.done = done at hticks
  cases hticks with
  | stopped | finished => cases hvalue
  | eased next hfar hnext =>
      simp only at hvalue
      split at hvalue
      · cases hvalue
      · next hchanged =>
          cases hvalue
          have hle : percent (.finite cur) ≤ percent (.finite next) :=
            percent_mono (by linarith)
          exact ⟨rfl, lt_of_le_of_ne hle (Ne.symm hchanged)⟩

/-- A ticker that is done stays as it is. -/
theorem tickBy_done (hdone : cs.done = true) : cs.tickBy .exact = (none, cs) := by
  unfold tickBy
  rw [if_pos hdone]

/-! All ticks. -/

/-- The cap of a phase. -/
def capOf (start stop : ℚ) : ℚ := start + 95 / 100 * (stop - start)

theorem newBy_within {start stop : ℚ} (h : start < stop) :
    (newBy .exact (.finite start) (.finite stop)).Within start (capOf start stop) start := by
  refine ⟨?_, rfl, le_refl start, ?_⟩
  · change F32.finite (start + 95 / 100 * (stop + -start)) = _
    rw [capOf, sub_eq_add_neg]
  · unfold capOf
    linarith

theorem Within.after (h : cs.Within start cap cur) (n : Nat) :
    ∃ next, (cs.after n).Within start cap next ∧ cur ≤ next := by
  induction n with
  | zero => exact ⟨cur, h, le_refl cur⟩
  | succ n ih =>
      obtain ⟨middle, hmiddle, hle⟩ := ih
      obtain ⟨next, hnext, hmore, -⟩ := hmiddle.tick
      rw [after_succ]
      exact ⟨next, hnext, le_trans hle hmore⟩

/-- The percent that is shown never falls. -/
theorem Within.percent_le (h : cs.Within start cap cur) {n m : Nat} (hle : n ≤ m) :
    percent (cs.after n).cur ≤ percent (cs.after m).cur := by
  induction hle with
  | refl => exact le_refl _
  | @step m _ ih =>
      obtain ⟨middle, hmiddle, -⟩ := h.after m
      obtain ⟨next, hnext, hmore, -⟩ := hmiddle.tick
      apply le_trans ih
      rw [after_succ, hmiddle.at_cur, hnext.at_cur]
      exact percent_mono hmore

/-- After a number of ticks the ticker is done, or what is left has shrunk as often. -/
theorem Within.left (h : cs.Within start cap cur) (n : Nat) :
    (cs.after n).done = true ∨ ∃ next, (cs.after n).Within start cap next ∧
      cap - next = (98 / 100) ^ n * (cap - cur) := by
  induction n with
  | zero => exact .inr ⟨cur, h, by rw [pow_zero, one_mul]⟩
  | succ n ih =>
      rw [after_succ]
      rcases ih with hdone | ⟨middle, hmiddle, hleft⟩
      · left
        rw [tickBy_done hdone]
        exact hdone
      · obtain ⟨next, hnext, -, hdone | ⟨hshrunk, -⟩⟩ := hmiddle.tick
        · exact .inl hdone
        · refine .inr ⟨next, hnext, ?_⟩
          rw [hshrunk, hleft, pow_succ]
          ring

/-- The number of ticks within which any ticker is done. -/
def tickBound : Nat := 455

theorem Within.done (h : cs.Within start cap cur) (hgap : cap - cur ≤ 95 / 100) :
    (cs.after tickBound).done = true := by
  have hfew : ((98 : ℚ) / 100) ^ 454 * (95 / 100) ≤ 1 / 10000 := by
    rw [show 454 = 227 * 2 from rfl, pow_mul]
    norm_num
  rw [tickBound, after_succ]
  rcases h.left 454 with hdone | ⟨next, hnext, hleft⟩
  · rw [tickBy_done hdone]
    exact hdone
  · obtain ⟨-, -, -, hdone | ⟨-, hfar⟩⟩ := hnext.tick
    · exact hdone
    · have hpow : (0 : ℚ) ≤ (98 / 100) ^ 454 := by positivity
      have hsmall : cap - next ≤ 1 / 10000 := by
        rw [hleft]
        exact le_trans (mul_le_mul_of_nonneg_left hgap hpow) hfew
      linarith

theorem after_of_done {n m : Nat} (hdone : (cs.after n).done = true) (hle : n ≤ m) :
    cs.after m = cs.after n := by
  obtain ⟨k, rfl⟩ := Nat.exists_eq_add_of_le hle
  have hfixed : Function.IsFixedPt (fun cs : CreepState => (cs.tickBy .exact).2) (cs.after n) :=
    congrArg Prod.snd (tickBy_done hdone)
  rw [Nat.add_comm, after, Function.iterate_add_apply]
  exact (hfixed.iterate k).eq

end CreepState

/-- The ticker of a phase stays between its start and a cap before its end and never
moves back; what it returns is its new place, shown as a larger percent each time; once
it is done nothing changes; and it is done within a number of ticks that is the same for
all phases. -/
theorem ticker_stays_and_stops {start stop : ℚ} (hzero : 0 ≤ start) (hlt : start < stop)
    (hone : stop ≤ 1) :
    let cs := CreepState.newBy .exact (.finite start) (.finite stop)
    let cap := start + 95 / 100 * (stop - start)
    cap < stop ∧
    (∀ n, ∃ cur next, (cs.after n).cur = .finite cur ∧ (cs.after (n + 1)).cur = .finite next ∧
      (cs.after n).cap = .finite cap ∧ start ≤ cur ∧ cur ≤ next ∧ next ≤ cap) ∧
    (∀ n value, cs.returned n = some value → value = (cs.after (n + 1)).cur ∧
      ∀ m earlier, m < n → cs.returned m = some earlier → percent earlier < percent value) ∧
    (∀ n m, (cs.after n).done = true → n ≤ m →
      cs.returned m = none ∧ cs.after m = cs.after n) ∧
    (cs.after CreepState.tickBound).done = true := by
  intro cs cap
  have hcap : cap = start + 95 / 100 * (stop - start) := rfl
  have hwithin : cs.Within start cap start := CreepState.newBy_within hlt
  refine ⟨?_, fun n => ?_, fun n value hvalue => ?_, fun n m hdone hle => ?_, ?_⟩
  · linarith
  · obtain ⟨cur, hcur, -⟩ := hwithin.after n
    obtain ⟨next, hnext, hmore, -⟩ := hcur.tick
    rw [CreepState.after_succ]
    exact ⟨cur, next, hcur.at_cur, hnext.at_cur, hcur.capped, hcur.low, hmore, hnext.high⟩
  · obtain ⟨cur, hcur, -⟩ := hwithin.after n
    obtain ⟨hplace, hlarger⟩ := hcur.returns hvalue
    rw [CreepState.after_succ]
    refine ⟨hplace, fun m earlier hm hearlier => ?_⟩
    obtain ⟨before, hbefore, -⟩ := hwithin.after m
    obtain ⟨hthere, -⟩ := hbefore.returns hearlier
    rw [← CreepState.after_succ] at hthere
    rw [hthere]
    exact lt_of_le_of_lt (hwithin.percent_le hm) hlarger
  · have hsame := CreepState.after_of_done hdone hle
    rw [CreepState.returned, hsame, CreepState.tickBy_done hdone]
    exact ⟨rfl, rfl⟩
  · apply hwithin.done
    linarith

/-- The second half of the bar. -/
theorem ticker_stays_and_stops_half :
    ((CreepState.newBy .exact (.finite (1 / 2)) (.finite 1)).after
      CreepState.tickBound).done = true :=
  (ticker_stays_and_stops (by norm_num) (by norm_num) (le_refl _)).2.2.2.2

end Execra
