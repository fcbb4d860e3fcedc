import Execra.Foundation.Broadcast

/-!
What a receiver of a broadcast channel has got when it stands at some position of the
list of all values that were sent, and keeps some of the values it reads. It has got
them in order and none twice; and it has got all of them if no value it would have
kept has left the channel unread.
-/

namespace Execra.Broadcast

variable {α : Type*} {capacity : Nat}

/-- What the receiver has got is among what it would have kept of the values before its
position. -/
def Follows (keep : α → Bool) (history : List α) (pos : Nat) (got : List α) : Prop :=
  got.Sublist ((history.take pos).filter keep)

/-- It has got all of it, and will get what comes: the values that it can no longer have
are none that it would keep. -/
structure Whole (keep : α → Bool) (b : Broadcast capacity α) (history : List α) (pos : Nat)
    (got : List α) : Prop where
  got : got = (history.take pos).filter keep
  gap : ∀ (p : Nat) (a : α), pos ≤ p → p < b.oldest → history[p]? = some a → keep a = false

variable {keep : α → Bool} {b : Broadcast capacity α} {history got : List α} {pos pos' : Nat}
  {a : α}

theorem filter_take_succ (h : history[pos]? = some a) :
    (history.take (pos + 1)).filter keep =
      (history.take pos).filter keep ++ if keep a then [a] else [] := by
  rw [List.take_add_one, h, Option.toList_some, List.filter_append]
  cases hkeep : keep a <;> simp [hkeep]

/-! The receiver has not moved, and another value is sent. -/

theorem Follows.send (h : Follows keep history pos got) (hpos : pos ≤ history.length) :
    Follows keep (history ++ [a]) pos got := by
  unfold Follows
  rwa [List.take_append_of_le_length hpos]

theorem Whole.send (h : Whole keep b history pos got) (hcapacity : 0 < capacity)
    (hpos : pos ≤ history.length) (hcarries : b.Carries history)
    (hkept : ∀ x, b.overruns pos = some x → keep x = false) :
    Whole keep (b.send a) (history ++ [a]) pos got := by
  refine ⟨?_, fun p x hp hgone hx => ?_⟩
  · rw [List.take_append_of_le_length hpos]
    exact h.got
  · have htail := hcarries.tail
    rw [oldest_send] at hgone
    have hlt : p < history.length := by omega
    rw [List.getElem?_append_left hlt] at hx
    rcases Nat.lt_or_ge p b.oldest with hold | hnew
    · exact h.gap p x hp hold hx
    · have hsame : b.oldest = p := by rw [oldest] at hnew ⊢; omega
      exact hkept x (hcarries.overruns_iff.mpr ⟨by omega, by omega, hsame ▸ hx⟩)

/-! The receiver moves. -/

/-- It goes on behind a gap. -/
theorem Follows.skip (h : Follows keep history pos got) (hle : pos ≤ pos') :
    Follows keep history pos' got :=
  h.trans ((List.take_sublist_take_left hle).filter keep)

theorem Whole.skip (h : Whole keep b history pos got) (hbehind : pos < b.oldest) :
    Whole keep b history b.oldest got := by
  refine ⟨?_, fun p x hp hgone => absurd hgone (by omega)⟩
  have hsplit : history.take b.oldest =
      history.take pos ++ (history.take b.oldest).drop pos := by
    conv_lhs => rw [← List.take_append_drop pos (history.take b.oldest)]
    rw [List.take_take, Nat.min_eq_left (Nat.le_of_lt hbehind)]
  have hgap : ((history.take b.oldest).drop pos).filter keep = [] := by
    refine List.filter_eq_nil_iff.mpr (fun x hx => ?_)
    obtain ⟨i, hi⟩ := List.mem_iff_getElem?.mp hx
    rw [List.getElem?_drop] at hi
    have hlt : pos + i < b.oldest := by
      have hlen := (List.getElem?_eq_some_iff.mp hi).1
      rw [List.length_take] at hlen
      omega
    rw [List.getElem?_take_of_lt hlt] at hi
    rw [h.gap _ x (Nat.le_add_right _ _) hlt hi]
    exact Bool.false_ne_true
  rw [hsplit, List.filter_append, hgap, List.append_nil]
  exact h.got

/-- It reads a value. -/
theorem Follows.take (h : Follows keep history pos got) (hvalue : history[pos]? = some a) :
    Follows keep history (pos + 1) (got ++ if keep a then [a] else []) := by
  unfold Follows
  rw [filter_take_succ hvalue]
  exact List.Sublist.append h (List.Sublist.refl _)

theorem Whole.take (h : Whole keep b history pos got) (hvalue : history[pos]? = some a) :
    Whole keep b history (pos + 1) (got ++ if keep a then [a] else []) := by
  refine ⟨?_, fun p x hp => h.gap p x (Nat.le_of_succ_le hp)⟩
  rw [filter_take_succ hvalue, h.got]

end Execra.Broadcast
