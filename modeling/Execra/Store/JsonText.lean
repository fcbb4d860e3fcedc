import Execra.Model.Query
import Execra.Foundation.Like
import Mathlib.Tactic.IntervalCases

/-!
The JSON text of a tag list, read along its escape units. A string is written as
one unit for each character, no unit begins with a quote, and of the units only
that of the quote has one inside; so the quotes of the text are those the
strings escape and those around them.
-/

namespace Execra

/-! Letters. -/

/-- A character that `LIKE` takes for another one too: a letter of the ASCII range, or one of
the three that it reads as the replacement character. -/
def isFolded (c : Char) : Bool :=
  ('A' ≤ c ∧ c ≤ 'Z') ∨ ('a' ≤ c ∧ c ≤ 'z') ∨ (0xFFFD ≤ c.toNat ∧ c.toNat ≤ 0xFFFF)

theorem foldCase_upper {c : Char} (h : 'A' ≤ c ∧ c ≤ 'Z') :
    (foldCase c).toNat = c.toNat + 32 := by
  have hhigh : c.toNat ≤ 90 := h.2
  have hvalid : (c.toNat + 32).isValidChar := Or.inl (by omega)
  rw [foldCase, if_pos h, Char.ofNat, dif_pos hvalid]
  rfl

@[simp] theorem sameLetter_self (c : Char) : sameLetter c c = true := by simp [sameLetter]

/-- Only a folded character is read as another one. -/
theorem eq_of_sameLetter {a b : Char} (hb : isFolded b = false) (h : sameLetter a b = true) :
    a = b := by
  have hfold : foldCase (readChar a) = foldCase (readChar b) := by simpa [sameLetter] using h
  simp only [isFolded, decide_eq_false_iff_not, not_or] at hb
  obtain ⟨hupper, hlower, hlast⟩ := hb
  have hread : readChar b = b := if_neg (by omega)
  have hsame : foldCase b = b := if_neg hupper
  rw [hread, hsame] at hfold
  by_cases hspecial : a.toNat = 0xFFFE ∨ a.toNat = 0xFFFF
  · rw [readChar, if_pos hspecial] at hfold
    subst hfold
    exact absurd (by decide) hlast
  rw [readChar, if_neg hspecial] at hfold
  by_cases hup : 'A' ≤ a ∧ a ≤ 'Z'
  · have hlow : 65 ≤ a.toNat := hup.1
    have hhigh : a.toNat ≤ 90 := hup.2
    have hnat := foldCase_upper hup
    rw [hfold] at hnat
    refine absurd (?_ : 'a' ≤ b ∧ b ≤ 'z') hlower
    have hlo : (97 : Nat) ≤ b.toNat := by omega
    have hhi : b.toNat ≤ 122 := by omega
    exact ⟨hlo, hhi⟩
  · rw [foldCase, if_neg hup] at hfold
    exact hfold

theorem sameLetter_symm {a b : Char} (h : sameLetter a b = true) : sameLetter b a = true := by
  simpa [sameLetter, eq_comm] using h

theorem sameLetter_iff {a b : Char} (ha : isFolded a = false) :
    sameLetter a b = true ↔ b = a :=
  ⟨fun h => eq_of_sameLetter ha (sameLetter_symm h), fun h => h ▸ sameLetter_self _⟩

/-! Escape units. -/

/-- A character that stands for itself in a JSON string. -/
def isBare (c : Char) : Bool := c ≠ '"' ∧ c ≠ '\\' ∧ 32 ≤ c.toNat

theorem jsonEscape_bare {c : Char} (h : isBare c = true) : jsonEscape c = [c] := by
  simp only [isBare, decide_eq_true_eq] at h
  obtain ⟨hquote, hslash, hprint⟩ := h
  unfold jsonEscape
  rw [if_neg hquote, if_neg hslash, if_neg (by omega), if_neg (by omega), if_neg (by omega),
    if_neg (by omega), if_neg (by omega), if_neg (by omega)]

theorem digitChar_ne_quote {n : Nat} (h : n < 16) : Nat.digitChar n ≠ '"' := by
  interval_cases n <;> decide

/-- Any other character is written as a backslash and an escape, which begins
with a quote for the quote alone and has no quote behind that. -/
theorem jsonEscape_special {c : Char} (h : isBare c = false) :
    ∃ second rest, jsonEscape c = '\\' :: second :: rest ∧ (second = '"' ↔ c = '"') ∧
      (c = '"' → rest = []) ∧ '"' ∉ rest := by
  by_cases hquote : c = '"'
  · subst hquote
    exact ⟨'"', [], rfl, Iff.rfl, fun _ => rfl, List.not_mem_nil⟩
  · by_cases hslash : c = '\\'
    · subst hslash
      exact ⟨'\\', [], rfl, by decide, fun _ => rfl, List.not_mem_nil⟩
    · have hcontrol : c.toNat < 32 := by
        by_contra hprint
        simp [isBare, hquote, hslash, not_lt.mp hprint] at h
      unfold jsonEscape
      rw [if_neg hquote, if_neg hslash]
      have hhigh := (digitChar_ne_quote (n := c.toNat / 16) (by omega)).symm
      have hlow := (digitChar_ne_quote (n := c.toNat % 16) (by omega)).symm
      split_ifs
      all_goals
        refine ⟨_, _, rfl, iff_of_false (by decide) hquote, fun hc => absurd hc hquote, ?_⟩
        simp [hhigh, hlow]

theorem isFolded_special {c : Char} (h : isBare c = false) : isFolded c = false := by
  by_cases hquote : c = '"'
  · subst hquote
    decide
  · by_cases hslash : c = '\\'
    · subst hslash
      decide
    · simp only [isBare, isFolded, decide_eq_false_iff_not] at h ⊢
      have hcontrol : c.toNat < 32 := by
        by_contra hprint
        exact h ⟨hquote, hslash, not_lt.mp hprint⟩
      rintro (⟨hlow, -⟩ | ⟨hlow, -⟩ | ⟨hlow, -⟩)
      · exact absurd (show 65 ≤ c.toNat from hlow) (by omega)
      · exact absurd (show 97 ≤ c.toNat from hlow) (by omega)
      · omega

/-- No escape begins with a quote. -/
theorem jsonEscape_head (c : Char) : ∃ first rest, jsonEscape c = first :: rest ∧ first ≠ '"' := by
  cases hbare : isBare c with
  | true =>
      simp only [isBare, decide_eq_true_eq] at hbare
      exact ⟨c, [], jsonEscape_bare (by simpa [isBare] using hbare), hbare.1⟩
  | false =>
      obtain ⟨second, rest, hescape, -⟩ := jsonEscape_special hbare
      exact ⟨'\\', second :: rest, hescape, by decide⟩

theorem quote_notMem_jsonEscape {c : Char} (h : c ≠ '"') : '"' ∉ jsonEscape c := by
  cases hbare : isBare c with
  | true =>
      rw [jsonEscape_bare hbare]
      simpa using h.symm
  | false =>
      obtain ⟨second, rest, hescape, hsecond, -, hrest⟩ := jsonEscape_special hbare
      rw [hescape]
      simp only [List.mem_cons, not_or]
      exact ⟨by decide, fun heq => h (hsecond.mp heq.symm), hrest⟩

def escaped (s : List Char) : List Char := s.flatMap jsonEscape

@[simp] theorem escaped_nil : escaped [] = [] := rfl

@[simp] theorem escaped_cons (c : Char) (s : List Char) :
    escaped (c :: s) = jsonEscape c ++ escaped s := rfl

/-! What stands behind a quote. -/

/-- Behind some quote of the text stands what `P` asks for. -/
def Occurs (P : List Char → Prop) (text : List Char) : Prop :=
  ∃ before rest, text = before ++ '"' :: rest ∧ P rest

section Occurs

variable {P : List Char → Prop}

theorem not_occurs_nil : ¬ Occurs P [] := by
  rintro ⟨before, rest, htext, -⟩
  simp at htext

theorem occurs_cons {a : Char} {text : List Char} :
    Occurs P (a :: text) ↔ (a = '"' ∧ P text) ∨ Occurs P text := by
  constructor
  · rintro ⟨before, rest, htext, hrest⟩
    cases before with
    | nil =>
        obtain ⟨rfl, rfl⟩ := List.cons.inj htext
        exact Or.inl ⟨rfl, hrest⟩
    | cons b before =>
        obtain ⟨rfl, rfl⟩ := List.cons.inj htext
        exact Or.inr ⟨before, rest, rfl, hrest⟩
  · rintro (⟨rfl, hrest⟩ | ⟨before, rest, rfl, hrest⟩)
    · exact ⟨[], text, rfl, hrest⟩
    · exact ⟨a :: before, rest, rfl, hrest⟩

theorem occurs_skip {skipped text : List Char} (h : '"' ∉ skipped) :
    Occurs P (skipped ++ text) ↔ Occurs P text := by
  induction skipped with
  | nil => exact Iff.rfl
  | cons a skipped ih =>
      obtain ⟨hne, hrest⟩ := not_or.mp (mt List.mem_cons.mpr h)
      rw [List.cons_append, occurs_cons, ih hrest]
      exact or_iff_right (fun hquote => hne hquote.1.symm)

/-- The quotes behind the first one of a JSON string: those it escapes, and the
one that ends it. -/
theorem occurs_escaped {s rest : List Char} :
    Occurs P (escaped s ++ '"' :: rest) ↔
      (∃ before tail, s = before ++ '"' :: tail ∧ P (escaped tail ++ '"' :: rest)) ∨
        P rest ∨ Occurs P rest := by
  induction s with
  | nil => simp [occurs_cons]
  | cons c s ih =>
      rw [escaped_cons, List.append_assoc]
      by_cases hquote : c = '"'
      · subst hquote
        change Occurs P ('\\' :: '"' :: (escaped s ++ '"' :: rest)) ↔ _
        rw [occurs_cons, occurs_cons, ih]
        constructor
        · rintro (⟨hslash, -⟩ | ⟨-, hhead⟩ | ⟨before, tail, rfl, hhead⟩ | h)
          · exact absurd hslash (by decide)
          · exact Or.inl ⟨[], s, rfl, hhead⟩
          · exact Or.inl ⟨'"' :: before, tail, rfl, hhead⟩
          · exact Or.inr h
        · rintro (⟨before, tail, hsplit, hhead⟩ | h)
          · cases before with
            | nil =>
                obtain ⟨-, rfl⟩ := List.cons.inj hsplit
                exact Or.inr (Or.inl ⟨rfl, hhead⟩)
            | cons b before =>
                obtain ⟨-, rfl⟩ := List.cons.inj hsplit
                exact Or.inr (Or.inr (Or.inl ⟨before, tail, rfl, hhead⟩))
          · exact Or.inr (Or.inr (Or.inr h))
      · rw [occurs_skip (quote_notMem_jsonEscape hquote), ih]
        refine or_congr ?_ Iff.rfl
        constructor
        · rintro ⟨before, tail, rfl, hhead⟩
          exact ⟨c :: before, tail, rfl, hhead⟩
        · rintro ⟨before, tail, hsplit, hhead⟩
          cases before with
          | nil => exact absurd (List.cons.inj hsplit).1 hquote
          | cons b before =>
              obtain ⟨-, rfl⟩ := List.cons.inj hsplit
              exact ⟨before, tail, rfl, hhead⟩

end Occurs

/-- The text begins with the word, up to the case of letters, and a quote. -/
def HeadMatch (word text : List Char) : Prop :=
  ∃ found after, text = found ++ '"' :: after ∧ Like.SameWord sameLetter word found

theorem headMatch_nil {text : List Char} :
    HeadMatch [] text ↔ ∃ after, text = '"' :: after := by
  constructor
  · rintro ⟨found, after, htext, hsame⟩
    cases hsame
    exact ⟨after, htext⟩
  · rintro ⟨after, htext⟩
    exact ⟨[], after, htext, .nil⟩

theorem headMatch_cons {a b : Char} {word text : List Char} :
    HeadMatch (a :: word) (b :: text) ↔ sameLetter a b = true ∧ HeadMatch word text := by
  constructor
  · rintro ⟨found, after, htext, hsame⟩
    cases hsame with
    | cons hab hsame =>
        obtain ⟨rfl, rfl⟩ := List.cons.inj htext
        exact ⟨hab, _, after, rfl, hsame⟩
  · rintro ⟨hab, found, after, rfl, hsame⟩
    exact ⟨b :: found, after, rfl, .cons hab hsame⟩

theorem not_headMatch_empty (word : List Char) : ¬ HeadMatch word [] := by
  rintro ⟨found, after, htext, -⟩
  simp at htext

/-! The text of a tag list. -/

/-- The JSON text of a tag list, its first bracket left out. -/
def listText : List String → List Char
  | [] => [']']
  | [tag] => '"' :: escaped tag.toList ++ ['"', ']']
  | tag :: next :: rest => '"' :: escaped tag.toList ++ '"' :: ',' :: listText (next :: rest)

theorem tagsJson_toList (tags : List String) : (tagsJson tags).toList = '[' :: listText tags := by
  have htext : List.intercalate [','] (tags.map jsonString) ++ [']'] = listText tags := by
    induction tags with
    | nil => rfl
    | cons tag rest ih =>
        cases rest with
        | nil => simp [List.intercalate, jsonString, listText, escaped]
        | cons next rest =>
            rw [listText, ← ih]
            simp [List.intercalate, jsonString, escaped]
  rw [tagsJson, String.toList_ofList, List.cons_append, htext]

theorem printable_jsonEscape {c d : Char} (h : d ∈ jsonEscape c) : 32 ≤ d.toNat := by
  have hdigit : ∀ {n : Nat}, n < 16 → 32 ≤ (Nat.digitChar n).toNat := by
    intro n hn
    interval_cases n <;> decide
  have hpair : ∀ {second : Char}, 32 ≤ second.toNat → d ∈ ['\\', second] → 32 ≤ d.toNat := by
    intro second hsecond hd
    simp only [List.mem_cons, List.not_mem_nil, or_false] at hd
    rcases hd with rfl | rfl
    · decide
    · exact hsecond
  unfold jsonEscape at h
  split_ifs at h with _ _ _ _ _ _ _ hcontrol
  · exact hpair (by decide) h
  · exact hpair (by decide) h
  · exact hpair (by decide) h
  · exact hpair (by decide) h
  · exact hpair (by decide) h
  · exact hpair (by decide) h
  · exact hpair (by decide) h
  · simp only [List.mem_cons, List.not_mem_nil, or_false] at h
    rcases h with rfl | rfl | rfl | rfl | rfl | rfl
    · decide
    · decide
    · decide
    · decide
    · exact hdigit (by omega)
    · exact hdigit (by omega)
  · exact List.mem_singleton.mp h ▸ not_lt.mp hcontrol

/-- The text of a tag list has no control characters. -/
theorem printable_listText {tags : List String} {c : Char} (h : c ∈ listText tags) :
    32 ≤ c.toNat := by
  have hstring : ∀ {tag : String}, c ∈ escaped tag.toList → 32 ≤ c.toNat := by
    intro tag hc
    obtain ⟨d, -, hd⟩ := List.mem_flatMap.mp hc
    exact printable_jsonEscape hd
  have hpunctuation : c = '"' ∨ c = ',' ∨ c = ']' → 32 ≤ c.toNat := by
    rintro (rfl | rfl | rfl) <;> decide
  induction tags with
  | nil => exact hpunctuation (Or.inr (Or.inr (List.mem_singleton.mp h)))
  | cons tag rest ih =>
      cases rest with
      | nil =>
          simp only [listText, List.cons_append, List.mem_cons, List.mem_append,
            List.not_mem_nil, or_false] at h
          rcases h with h | h | h | h
          · exact hpunctuation (Or.inl h)
          · exact hstring h
          · exact hpunctuation (Or.inl h)
          · exact hpunctuation (Or.inr (Or.inr h))
      | cons next rest =>
          simp only [listText, List.cons_append, List.mem_cons, List.mem_append] at h
          rcases h with h | h | h | h | h
          · exact hpunctuation (Or.inl h)
          · exact hstring h
          · exact hpunctuation (Or.inl h)
          · exact hpunctuation (Or.inr (Or.inl h))
          · exact ih h

theorem printable_tagsJson {tags : List String} {c : Char} (h : c ∈ (tagsJson tags).toList) :
    32 ≤ c.toNat := by
  rw [tagsJson_toList] at h
  rcases List.mem_cons.mp h with rfl | h
  · decide
  · exact printable_listText h

end Execra
