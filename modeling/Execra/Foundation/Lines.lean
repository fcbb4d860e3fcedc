import Mathlib.Data.List.Basic
import Mathlib.Data.List.TakeWhile

/-!
Splitting a sequence at a delimiter, over any alphabet. `pieces` is the
reference: every delimiter ends a piece, and what follows the last one is a
piece exactly when it is not empty. A reader that meets the sequence in parts
works with the two halves around the first delimiter (`beforeDelim`,
`afterDelim`); the lemmas say how the reference splits along them, so a proof
about such a reader never unfolds `pieces`.
-/

namespace Execra.Lines

variable {α : Type*} [DecidableEq α]

/-- The pieces of a sequence, without their delimiters. -/
def pieces (d : α) : List α → List (List α)
  | [] => []
  | x :: xs =>
      if x = d then [] :: pieces d xs
      else match pieces d xs with
        | [] => [[x]]
        | p :: ps => (x :: p) :: ps

/-- What precedes the first delimiter; everything when there is none. -/
def beforeDelim (d : α) (xs : List α) : List α := xs.takeWhile (fun x => x ≠ d)

/-- What follows the first delimiter. -/
def afterDelim (d : α) (xs : List α) : List α := (xs.dropWhile (fun x => x ≠ d)).tail

variable {d : α}

@[simp] theorem pieces_nil : pieces d ([] : List α) = [] := rfl

theorem pieces_delim_cons (rest : List α) :
    pieces d (d :: rest) = [] :: pieces d rest := by
  simp [pieces]

/-- A terminated piece splits off, whatever follows its delimiter. -/
theorem pieces_terminated (p rest : List α) (hp : d ∉ p) :
    pieces d (p ++ d :: rest) = p :: pieces d rest := by
  induction p with
  | nil => exact pieces_delim_cons rest
  | cons x xs ih =>
      have hx : x ≠ d := fun h => hp (by simp [h])
      have hxs : d ∉ xs := fun h => hp (by simp [h])
      simp [pieces, hx, ih hxs]

/-- An unterminated non-empty rest is one last piece. -/
theorem pieces_unterminated (p : List α) (hp : d ∉ p) (hne : p ≠ []) :
    pieces d p = [p] := by
  induction p with
  | nil => exact absurd rfl hne
  | cons x xs ih =>
      have hx : x ≠ d := fun h => hp (by simp [h])
      have hxs : d ∉ xs := fun h => hp (by simp [h])
      cases xs with
      | nil => simp [pieces, hx]
      | cons y ys =>
          have htail := ih hxs (by simp)
          rw [pieces, if_neg hx, htail]

theorem not_mem_beforeDelim (xs : List α) : d ∉ beforeDelim d xs := by
  intro h
  have := List.mem_takeWhile_imp h
  simp at this

/-- A sequence with a delimiter is cut around the first one. -/
theorem beforeDelim_append_afterDelim (xs : List α) (h : d ∈ xs) :
    beforeDelim d xs ++ d :: afterDelim d xs = xs := by
  induction xs with
  | nil => cases h
  | cons x xs ih =>
      by_cases hx : x = d
      · simp [beforeDelim, afterDelim, hx]
      · have hxs : d ∈ xs := by
          rcases List.mem_cons.mp h with h | h
          · exact absurd h.symm hx
          · exact h
        have hcut := ih hxs
        simpa [beforeDelim, afterDelim, hx] using hcut

/-- A consumed prefix `done` that is empty or ends with the delimiter has the
pieces `ps`, whatever follows it. -/
def Cut (d : α) (done : List α) (ps : List (List α)) : Prop :=
  ∀ rest, pieces d (done ++ rest) = ps ++ pieces d rest

theorem Cut.nil : Cut d ([] : List α) [] := fun _ => rfl

theorem Cut.line {done : List α} {ps : List (List α)} (h : Cut d done ps)
    {p : List α} (hp : d ∉ p) : Cut d (done ++ (p ++ [d])) (ps ++ [p]) := by
  intro rest
  have := h (p ++ d :: rest)
  rw [pieces_terminated p rest hp] at this
  simpa using this

/-! The two halves of a sequence that comes in parts. -/

variable {xs : List α}

theorem beforeDelim_append_of_not_mem (h : d ∉ xs) (ys : List α) :
    beforeDelim d (xs ++ ys) = xs ++ beforeDelim d ys :=
  List.takeWhile_append_of_pos fun _ hx => decide_eq_true fun hd => h (hd ▸ hx)

theorem afterDelim_append_of_not_mem (h : d ∉ xs) (ys : List α) :
    afterDelim d (xs ++ ys) = afterDelim d ys :=
  congrArg List.tail
    (List.dropWhile_append_of_pos fun _ hx => decide_eq_true fun hd => h (hd ▸ hx))

theorem beforeDelim_cons (ys : List α) : beforeDelim d (d :: ys) = [] :=
  List.takeWhile_cons_of_neg (by simp)

theorem afterDelim_cons (ys : List α) : afterDelim d (d :: ys) = ys :=
  congrArg List.tail (List.dropWhile_cons_of_neg (by simp))

theorem beforeDelim_append_of_mem (h : d ∈ xs) (ys : List α) :
    beforeDelim d (xs ++ ys) = beforeDelim d xs := by
  nth_rewrite 1 [← beforeDelim_append_afterDelim xs h]
  rw [List.append_assoc, List.cons_append,
    beforeDelim_append_of_not_mem (not_mem_beforeDelim xs), beforeDelim_cons, List.append_nil]

theorem afterDelim_append_of_mem (h : d ∈ xs) (ys : List α) :
    afterDelim d (xs ++ ys) = afterDelim d xs ++ ys := by
  nth_rewrite 1 [← beforeDelim_append_afterDelim xs h]
  rw [List.append_assoc, List.cons_append,
    afterDelim_append_of_not_mem (not_mem_beforeDelim xs), afterDelim_cons]

/-- A sequence is its terminated pieces and what follows the last delimiter. -/
theorem exists_terminated (d : α) (xs : List α) : ∃ full rest,
    xs = full.flatMap (fun p => p ++ [d]) ++ rest ∧ (∀ p ∈ full, d ∉ p) ∧ d ∉ rest ∧
      pieces d xs = full ++ if rest = [] then [] else [rest] := by
  induction xs with
  | nil => exact ⟨[], [], rfl, List.forall_mem_nil _, List.not_mem_nil, rfl⟩
  | cons x xs ih =>
      obtain ⟨full, rest, hxs, hfull, hrest, hpieces⟩ := ih
      by_cases hx : x = d
      · refine ⟨[] :: full, rest, ?_, List.forall_mem_cons.mpr ⟨List.not_mem_nil, hfull⟩,
          hrest, ?_⟩
        · rw [hx, hxs]
          rfl
        · rw [hx, pieces_delim_cons, hpieces]
          rfl
      · cases full with
        | nil =>
            have hopen : d ∉ x :: rest := List.not_mem_cons_of_ne_of_not_mem (Ne.symm hx) hrest
            refine ⟨[], x :: rest, by rw [hxs]; rfl, List.forall_mem_nil _, hopen, ?_⟩
            rw [hxs, List.flatMap_nil, List.nil_append,
              pieces_unterminated _ hopen (List.cons_ne_nil x rest),
              if_neg (List.cons_ne_nil x rest), List.nil_append]
        | cons p full =>
            obtain ⟨hp, hmore⟩ := List.forall_mem_cons.mp hfull
            have hopen : d ∉ x :: p := List.not_mem_cons_of_ne_of_not_mem (Ne.symm hx) hp
            refine ⟨(x :: p) :: full, rest, by rw [hxs]; rfl,
              List.forall_mem_cons.mpr ⟨hopen, hmore⟩, hrest, ?_⟩
            rw [pieces, if_neg hx, hpieces]
            rfl

/-- There are as many terminated pieces as delimiters. -/
theorem length_terminated {full : List (List α)} {rest : List α} (hfull : ∀ p ∈ full, d ∉ p)
    (hrest : d ∉ rest) : (full.flatMap (fun p => p ++ [d]) ++ rest).count d = full.length := by
  induction full with
  | nil => exact List.count_eq_zero.mpr hrest
  | cons p full ih =>
      obtain ⟨hp, hmore⟩ := List.forall_mem_cons.mp hfull
      rw [List.flatMap_cons, List.append_assoc, List.count_append, ih hmore, List.count_append,
        List.count_eq_zero.mpr hp, List.count_singleton_self, List.length_cons]
      omega

end Execra.Lines
