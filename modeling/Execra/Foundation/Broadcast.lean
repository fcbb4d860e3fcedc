import Mathlib.Data.List.Basic
import Mathlib.Tactic.Common

/-!
A broadcast channel of bounded capacity. Every value that is sent gets the next
position, and the channel keeps the values of the latest positions. A receiver is
the position it reads next; one that has fallen behind the oldest value that is
kept is told so, once, and goes on from there.

`Carries` ties a channel to the list of all values that were ever sent. In its
terms a receiver walks along the list and skips what it can no longer have.
-/

namespace Execra

structure Broadcast (capacity : Nat) (α : Type*) where
  kept : List α
  tail : Nat
  fits : kept.length = min tail capacity

/-- What a receiver finds. -/
inductive Received (α : Type*) where
  | value (a : α)
  | lagged (missed : Nat)
  | empty
deriving DecidableEq, Repr

namespace Broadcast

variable {α : Type*} {capacity : Nat}

def new : Broadcast capacity α := ⟨[], 0, by simp⟩

/-- The position of the oldest value that is kept. It is not to be computed in a
proof: a capacity is a large number. -/
@[irreducible] def oldest (b : Broadcast capacity α) : Nat := b.tail - capacity

def send (b : Broadcast capacity α) (a : α) : Broadcast capacity α where
  kept := (b.kept ++ [a]).drop (b.kept.length + 1 - capacity)
  tail := b.tail + 1
  fits := by
    have hfits := b.fits
    simp only [List.length_drop, List.length_append, List.length_singleton]
    omega

/-- What a receiver finds, and where it stands then. -/
def recv (b : Broadcast capacity α) (pos : Nat) : Received α × Nat :=
  if pos < b.oldest then (.lagged (b.oldest - pos), b.oldest)
  else match b.kept[pos - b.oldest]? with
    | some a => (.value a, pos + 1)
    | none => (.empty, pos)

/-- The value that the next send takes away from a receiver that has not read it. -/
def overruns (b : Broadcast capacity α) (pos : Nat) : Option α :=
  if pos ≤ b.oldest ∧ capacity ≤ b.tail then b.kept.head? else none

/-- The values that were sent, and the last of them in the channel. -/
structure Carries (b : Broadcast capacity α) (history : List α) : Prop where
  tail : b.tail = history.length
  kept : b.kept = history.drop b.oldest

variable {b : Broadcast capacity α} {history : List α}

theorem carries_new : (new : Broadcast capacity α).Carries [] := ⟨rfl, List.drop_nil.symm⟩

theorem tail_send (a : α) : (b.send a).tail = b.tail + 1 := rfl

theorem oldest_send (a : α) : (b.send a).oldest = b.tail + 1 - capacity := by
  rw [oldest, tail_send]

theorem oldest_le_send (a : α) : b.oldest ≤ (b.send a).oldest := by
  rw [oldest_send, oldest]
  omega

theorem Carries.send (h : b.Carries history) (a : α) : (b.send a).Carries (history ++ [a]) := by
  have hlength : b.oldest ≤ history.length := by rw [oldest, h.tail]; omega
  refine ⟨?_, ?_⟩
  · simp [Broadcast.send, h.tail]
  · change (b.kept ++ [a]).drop (b.kept.length + 1 - capacity) = _
    have hdrop : b.kept ++ [a] = (history ++ [a]).drop b.oldest := by
      rw [h.kept, List.drop_append_of_le_length hlength]
    have hfits := b.fits
    rw [hdrop, List.drop_drop, oldest_send]
    congr 1
    rw [oldest]
    omega

/-- What a receiver finds, in terms of the values that were sent. -/
inductive Reads (b : Broadcast capacity α) (history : List α) (pos : Nat) :
    Received α × Nat → Prop where
  | lagged (h : pos < b.oldest) : Reads b history pos (.lagged (b.oldest - pos), b.oldest)
  | value (a : α) (hkept : b.oldest ≤ pos) (h : history[pos]? = some a) :
      Reads b history pos (.value a, pos + 1)
  | empty (hkept : b.oldest ≤ pos) (h : history.length ≤ pos) : Reads b history pos (.empty, pos)

theorem Carries.recv (h : b.Carries history) (pos : Nat) :
    Reads b history pos (b.recv pos) := by
  unfold Broadcast.recv
  split
  · next hlagged => exact .lagged hlagged
  · next hkept =>
      have hpos : b.kept[pos - b.oldest]? = history[pos]? := by
        rw [h.kept, List.getElem?_drop, Nat.add_sub_cancel' (by omega)]
      rw [hpos]
      cases hvalue : history[pos]? with
      | none => exact .empty (by omega) (List.getElem?_eq_none_iff.mp hvalue)
      | some a => exact .value a (by omega) hvalue

/-- The next send overruns a receiver if it moves the oldest position past the
receiver. -/
theorem Carries.overruns_iff (h : b.Carries history) {pos : Nat} {a : α} :
    b.overruns pos = some a ↔
      pos ≤ b.oldest ∧ capacity ≤ history.length ∧ history[b.oldest]? = some a := by
  unfold overruns
  rw [h.tail, h.kept, List.head?_drop]
  split
  · next hfull => simp [hfull]
  · next hfull =>
      simp only [reduceCtorEq, false_iff]
      intro hfound
      exact hfull ⟨hfound.1, hfound.2.1⟩

end Broadcast

end Execra
