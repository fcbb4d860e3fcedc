import Mathlib.Data.List.Sort

/-!
The first few elements of a list, from the greatest key down. Elements with the same key
stay in the order of the list, so the list decides which of them are among the first few;
their keys do not depend on it.
-/

namespace Execra

variable {α κ : Type*} [LinearOrder κ] (key : α → κ)

/-- The `n` elements with the greatest keys, the greatest first. -/
def foremost (n : Nat) (l : List α) : List α := (l.insertionSort (fun a b => key b ≤ key a)).take n

theorem sorted_by_key (l : List α) :
    (l.insertionSort (fun a b => key b ≤ key a)).Pairwise (fun a b => key b ≤ key a) := by
  have htrans : IsTrans α (fun a b => key b ≤ key a) := ⟨fun _ _ _ hab hbc => hbc.trans hab⟩
  have htotal : Std.Total (fun a b : α => key b ≤ key a) := ⟨fun a b => le_total (key b) (key a)⟩
  exact List.pairwise_insertionSort _ l

variable {key} {l l' : List α} {n : Nat}

theorem foremost_sorted : (foremost key n l).Pairwise (fun a b => key b ≤ key a) :=
  (sorted_by_key key l).sublist (List.take_sublist n _)

/-- The list is divided, and what is left over has no greater keys. -/
theorem foremost_divides (key : α → κ) (n : Nat) (l : List α) :
    ∃ rest, (foremost key n l ++ rest).Perm l ∧
      ∀ a ∈ foremost key n l, ∀ b ∈ rest, key b ≤ key a := by
  refine ⟨(l.insertionSort (fun a b => key b ≤ key a)).drop n, ?_, ?_⟩
  · rw [foremost, List.take_append_drop]
    exact List.perm_insertionSort _ l
  · have hsorted := sorted_by_key key l
    rw [← List.take_append_drop n (l.insertionSort _), List.pairwise_append] at hsorted
    exact hsorted.2.2

theorem mem_of_foremost {a : α} (h : a ∈ foremost key n l) : a ∈ l :=
  (List.mem_insertionSort _).mp (List.mem_of_mem_take h)

theorem length_foremost : (foremost key n l).length = min n l.length := by
  rw [foremost, List.length_take, List.length_insertionSort]

/-- Another order of the list may put other elements first, but with the same keys. -/
theorem foremost_keys_of_perm (h : l.Perm l') :
    (foremost key n l).map key = (foremost key n l').map key := by
  have hkeys (l : List α) := (sorted_by_key key l).map key (S := fun a b => b ≤ a)
    (fun _ _ hab => hab)
  have hperm : ((l.insertionSort (fun a b => key b ≤ key a)).map key).Perm
      ((l'.insertionSort (fun a b => key b ≤ key a)).map key) :=
    ((List.perm_insertionSort _ l).trans (h.trans (List.perm_insertionSort _ l').symm)).map key
  have hsame := hperm.eq_of_pairwise (fun a b _ _ hba hab => le_antisymm hab hba) (hkeys l)
    (hkeys l')
  rw [foremost, foremost, List.map_take, List.map_take, hsame]

end Execra
