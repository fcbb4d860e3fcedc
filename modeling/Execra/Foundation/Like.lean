import Mathlib.Data.List.Forall2
import Mathlib.Tactic.Common

/-!
Matching with wildcards, as SQL's `LIKE` does it: a pattern is a list of
tokens, one for any sequence, one for any single symbol, and the literals,
which match up to an equivalence of symbols. A pattern that is a literal word
between two sequence wildcards asks whether the word occurs.
-/

namespace Execra.Like

inductive Token (α : Type) where
  /-- Any sequence of symbols. -/
  | many
  /-- Any one symbol. -/
  | one
  | lit (a : α)
deriving DecidableEq, Repr

variable {α : Type} (eqv : α → α → Bool)

/-- Whether some suffix of a text meets `f`, the text itself included. -/
def anySuffix (f : List α → Bool) : List α → Bool
  | [] => f []
  | a :: text => f (a :: text) || anySuffix f text

/-- Whether a token accepts a symbol. -/
def Token.accepts : Token α → α → Bool
  | .many, _ => false
  | .one, _ => true
  | .lit a, b => eqv a b

/-- Whether a pattern matches a whole text. -/
def matchAll : List (Token α) → List α → Bool
  | [], text => text.isEmpty
  | .many :: pattern, text => anySuffix (matchAll pattern) text
  | _ :: _, [] => false
  | token :: pattern, a :: text => token.accepts eqv a && matchAll pattern text

/-- The texts a literal word matches. -/
def SameWord (word text : List α) : Prop := List.Forall₂ (fun a b => eqv a b = true) word text

variable {eqv}

theorem anySuffix_iff (f : List α → Bool) (text : List α) :
    anySuffix f text = true ↔ ∃ skipped rest, text = skipped ++ rest ∧ f rest = true := by
  induction text with
  | nil => simp [anySuffix]
  | cons a text ih =>
      simp only [anySuffix, Bool.or_eq_true, ih]
      constructor
      · rintro (h | ⟨skipped, rest, rfl, h⟩)
        · exact ⟨[], a :: text, rfl, h⟩
        · exact ⟨a :: skipped, rest, rfl, h⟩
      · rintro ⟨skipped, rest, htext, h⟩
        cases skipped with
        | nil => exact Or.inl (htext ▸ h)
        | cons b skipped =>
            obtain ⟨rfl, rfl⟩ := List.cons.inj htext
            exact Or.inr ⟨skipped, rest, rfl, h⟩

/-- A sequence wildcard skips as much as is needed. -/
theorem matchAll_many (pattern : List (Token α)) (text : List α) :
    matchAll eqv (.many :: pattern) text = true ↔
      ∃ skipped rest, text = skipped ++ rest ∧ matchAll eqv pattern rest = true :=
  anySuffix_iff _ text

@[simp] theorem matchAll_many_nil (text : List α) : matchAll eqv [.many] text = true :=
  (matchAll_many [] text).mpr ⟨text, [], by simp, rfl⟩

theorem matchAll_lit_cons (a b : α) (pattern : List (Token α)) (text : List α) :
    matchAll eqv (.lit a :: pattern) (b :: text) = true ↔
      eqv a b = true ∧ matchAll eqv pattern text = true := by
  simp [matchAll, Token.accepts]

theorem matchAll_lit (a : α) (pattern : List (Token α)) (text : List α) :
    matchAll eqv (.lit a :: pattern) text = true ↔
      ∃ b rest, text = b :: rest ∧ eqv a b = true ∧ matchAll eqv pattern rest = true := by
  cases text with
  | nil => simp [matchAll]
  | cons b text => simp [matchAll_lit_cons]

theorem matchAll_one (pattern : List (Token α)) (text : List α) :
    matchAll eqv (.one :: pattern) text = true ↔
      ∃ b rest, text = b :: rest ∧ matchAll eqv pattern rest = true := by
  cases text with
  | nil => simp [matchAll]
  | cons b text => simp [matchAll, Token.accepts]

/-- Two patterns one after the other match two texts one after the other. -/
theorem matchAll_append (first second : List (Token α)) (text : List α) :
    matchAll eqv (first ++ second) text = true ↔
      ∃ before after, text = before ++ after ∧ matchAll eqv first before = true ∧
        matchAll eqv second after = true := by
  induction first generalizing text with
  | nil => simp [matchAll]
  | cons token first ih =>
      cases token with
      | many =>
          rw [List.cons_append, matchAll_many]
          simp only [matchAll_many, ih]
          constructor
          · rintro ⟨skipped, _, rfl, before, after, rfl, hfirst, hsecond⟩
            exact ⟨skipped ++ before, after, by simp, ⟨skipped, before, rfl, hfirst⟩, hsecond⟩
          · rintro ⟨_, after, rfl, ⟨skipped, before, rfl, hfirst⟩, hsecond⟩
            exact ⟨skipped, before ++ after, by simp, before, after, rfl, hfirst, hsecond⟩
      | one | lit a =>
          cases text with
          | nil =>
              simp only [List.cons_append, matchAll, Bool.false_eq_true, false_iff]
              rintro ⟨before, after, htext, hfirst, -⟩
              obtain ⟨rfl, -⟩ := List.append_eq_nil_iff.mp htext.symm
              cases hfirst
          | cons b text =>
              simp only [List.cons_append, matchAll, Bool.and_eq_true, ih]
              constructor
              · rintro ⟨hb, before, after, rfl, hfirst, hsecond⟩
                exact ⟨b :: before, after, rfl, by simp [matchAll, hb, hfirst], hsecond⟩
              · rintro ⟨before, after, htext, hfirst, hsecond⟩
                cases before with
                | nil => cases hfirst
                | cons c before =>
                    obtain ⟨rfl, rfl⟩ := List.cons.inj htext
                    rw [matchAll, Bool.and_eq_true] at hfirst
                    · exact ⟨hfirst.1, before, after, rfl, hfirst.2, hsecond⟩
                    · nofun

/-- Every literal of a pattern that matches is matched by a symbol of the text. -/
theorem exists_of_matchAll_lit {a : α} {pattern : List (Token α)} {text : List α}
    (h : matchAll eqv pattern text = true) (ha : .lit a ∈ pattern) :
    ∃ b ∈ text, eqv a b = true := by
  induction pattern generalizing text with
  | nil => cases ha
  | cons token pattern ih =>
      cases token with
      | many =>
          obtain ⟨skipped, rest, rfl, hrest⟩ := (matchAll_many pattern text).mp h
          have hpattern : .lit a ∈ pattern := by simpa using ha
          obtain ⟨b, hb, hab⟩ := ih hrest hpattern
          exact ⟨b, List.mem_append_right _ hb, hab⟩
      | one =>
          cases text with
          | nil => cases h
          | cons c text =>
              have hpattern : .lit a ∈ pattern := by simpa using ha
              have hrest : matchAll eqv pattern text = true := by
                simpa [matchAll, Token.accepts] using h
              obtain ⟨b, hb, hab⟩ := ih hrest hpattern
              exact ⟨b, List.mem_cons_of_mem _ hb, hab⟩
      | lit a' =>
          obtain ⟨b, rest, rfl, hb, hrest⟩ := (matchAll_lit a' pattern text).mp h
          rcases List.mem_cons.mp ha with heq | hpattern
          · cases heq
            exact ⟨b, List.mem_cons_self, hb⟩
          · obtain ⟨b', hb', hab⟩ := ih hrest hpattern
            exact ⟨b', List.mem_cons_of_mem _ hb', hab⟩

/-- A literal word matches the texts that are the word up to the equivalence. -/
theorem matchAll_word (word text : List α) :
    matchAll eqv (word.map .lit) text = true ↔ SameWord eqv word text := by
  induction word generalizing text with
  | nil => cases text <;> simp [matchAll, SameWord]
  | cons a word ih =>
      rw [List.map_cons, matchAll_lit]
      constructor
      · rintro ⟨b, rest, rfl, hab, hrest⟩
        exact .cons hab ((ih rest).mp hrest)
      · intro hsame
        cases hsame with
        | cons hab hsame => exact ⟨_, _, rfl, hab, (ih _).mpr hsame⟩

end Execra.Like
