import Execra.Model.Machine
import Execra.Store.JsonText
import Execra.Store.Listing

/-!
The tag filter in SQL against the tag filter in memory. In SQL a tag is asked
for by a `LIKE` pattern over the JSON text of the tag list: the tag between two
quotes, its own quotes escaped. What the pattern finds is a look-alike of the
tag, a piece of that text behind a quote that the tag, read with its wildcards,
stands for. Read along the escape units of the text, the look-alikes of a plain
tag are the tags that equal it up to the case of ASCII letters, and also what
merely ends that way behind an escaped quote; and those of a comma are the
separators of any two tags. In memory it is equality.
-/

namespace Execra

/-! Look-alikes. -/

/-- What a tag stands for in a pattern: `%` for any characters and `_` for any one, a quote
for an escaped quote, any other character for itself up to the case of letters. -/
inductive Reads : List Char → List Char → Prop where
  | nil : Reads [] []
  | many {tag text : List Char} (skipped : List Char) (h : Reads tag text) :
      Reads ('%' :: tag) (skipped ++ text)
  | one {tag text : List Char} (d : Char) (h : Reads tag text) : Reads ('_' :: tag) (d :: text)
  | quote {tag text : List Char} (h : Reads tag text) : Reads ('"' :: tag) ('\\' :: '"' :: text)
  | letter {c d : Char} {tag text : List Char} (hmany : c ≠ '%') (hone : c ≠ '_')
      (hquote : c ≠ '"') (hsame : sameLetter c d = true) (h : Reads tag text) :
      Reads (c :: tag) (d :: text)

/-- The text begins with what the tag stands for. Behind that comes a quote; but a NUL ends
the pattern, so what a tag with a NUL stands for is all there is. -/
def ReadsHead (tag : String) (text : List Char) : Prop :=
  ∃ found after, text = found ++ after ∧ Reads (beforeNul tag.toList) found ∧
    if '\x00' ∈ tag.toList then after = [] else ∃ rest, after = '"' :: rest

/-- Behind a quote of the JSON text of the tag list stands what the tag stands for. -/
def LookAlike (tag : String) (tags : List String) : Prop :=
  Occurs (ReadsHead tag) (tagsJson tags).toList

/-! `LIKE` finds the look-alikes. -/

private theorem replaceQuotes_cons (c : Char) (tag : List Char) :
    replaceQuotes (c :: tag) = (if c = '"' then ['\\', '"'] else [c]) ++ replaceQuotes tag := rfl

theorem reads_iff (tag text : List Char) : Reads tag text ↔
    Like.matchAll sameLetter ((replaceQuotes tag).map likeToken) text = true := by
  have hquote : ∀ b, sameLetter '"' b = true ↔ b = '"' := fun b => sameLetter_iff (by decide)
  have hslash : ∀ b, sameLetter '\\' b = true ↔ b = '\\' := fun b => sameLetter_iff (by decide)
  induction tag generalizing text with
  | nil =>
      constructor
      · rintro ⟨⟩
        rfl
      · intro h
        cases text with
        | nil => exact .nil
        | cons => cases h
  | cons c tag ih =>
      rw [replaceQuotes_cons]
      by_cases hmany : c = '%'
      · subst hmany
        change _ ↔ Like.matchAll sameLetter (.many :: (replaceQuotes tag).map likeToken) text = true
        rw [Like.matchAll_many]
        constructor
        · intro h
          cases h with
          | many skipped h => exact ⟨skipped, _, rfl, (ih _).mp h⟩
          | letter hmany => exact absurd rfl hmany
        · rintro ⟨skipped, rest, rfl, h⟩
          exact .many skipped ((ih rest).mpr h)
      by_cases hone : c = '_'
      · subst hone
        change _ ↔ Like.matchAll sameLetter (.one :: (replaceQuotes tag).map likeToken) text = true
        rw [Like.matchAll_one]
        constructor
        · intro h
          cases h with
          | one d h => exact ⟨d, _, rfl, (ih _).mp h⟩
          | letter _ hone => exact absurd rfl hone
        · rintro ⟨d, rest, rfl, h⟩
          exact .one d ((ih rest).mpr h)
      by_cases hc : c = '"'
      · subst hc
        change _ ↔ Like.matchAll sameLetter
          (.lit '\\' :: .lit '"' :: (replaceQuotes tag).map likeToken) text = true
        simp only [Like.matchAll_lit, hslash, hquote]
        constructor
        · intro h
          cases h with
          | quote h => exact ⟨_, _, rfl, rfl, _, _, rfl, rfl, (ih _).mp h⟩
          | letter _ _ hc => exact absurd rfl hc
        · rintro ⟨_, _, rfl, rfl, _, rest, rfl, rfl, h⟩
          exact .quote ((ih rest).mpr h)
      · have htoken : likeToken c = .lit c := by rw [likeToken, if_neg hmany, if_neg hone]
        rw [if_neg hc, List.singleton_append, List.map_cons, htoken, Like.matchAll_lit]
        constructor
        · intro h
          cases h with
          | letter _ _ _ hsame h => exact ⟨_, _, rfl, hsame, (ih _).mp h⟩
          | many => exact absurd rfl hmany
          | one => exact absurd rfl hone
          | quote => exact absurd rfl hc
        · rintro ⟨d, rest, rfl, hsame, h⟩
          exact .letter hmany hone hc hsame ((ih rest).mpr h)

theorem beforeNul_eq_self {text : List Char} (h : '\x00' ∉ text) : beforeNul text = text :=
  List.takeWhile_eq_self_iff.mpr fun _ hc => decide_eq_true fun heq => h (heq ▸ hc)

private theorem beforeNul_cons {c : Char} (h : c ≠ '\x00') (text : List Char) :
    beforeNul (c :: text) = c :: beforeNul text :=
  List.takeWhile_cons_of_pos (decide_eq_true h)

/-- The quotes of a tag are escaped before its NUL as they are without one. -/
private theorem beforeNul_replaceQuotes (tag rest : List Char) :
    beforeNul (replaceQuotes tag ++ rest) =
      replaceQuotes (beforeNul tag) ++ if '\x00' ∈ tag then [] else beforeNul rest := by
  induction tag with
  | nil => rfl
  | cons c tag ih =>
      by_cases hnul : c = '\x00'
      · subst hnul
        rw [if_pos List.mem_cons_self]
        rfl
      · have hmem : '\x00' ∈ c :: tag ↔ '\x00' ∈ tag := by
          rw [List.mem_cons]
          exact or_iff_right (Ne.symm hnul)
        rw [beforeNul_cons hnul, replaceQuotes_cons, replaceQuotes_cons, List.append_assoc,
          List.append_assoc]
        simp only [hmem]
        rw [← ih]
        split
        · rfl
        · exact beforeNul_cons hnul _

theorem beforeNul_tagPattern (tag : String) : beforeNul (tagPattern tag) =
    '%' :: '"' :: (replaceQuotes (beforeNul tag.toList) ++
      if '\x00' ∈ tag.toList then [] else ['"', '%']) := by
  rw [tagPattern, List.cons_append, List.cons_append, beforeNul_cons (by decide),
    beforeNul_cons (by decide), beforeNul_replaceQuotes]
  rfl

/-- What `LIKE` finds for a tag. -/
theorem like_tagPattern_iff (tag : String) (tags : List String) :
    like (tagPattern tag) (tagsJson tags).toList = true ↔ LookAlike tag tags := by
  have hquote : ∀ b, sameLetter '"' b = true ↔ b = '"' := fun b => sameLetter_iff (by decide)
  have htext : beforeNul (tagsJson tags).toList = (tagsJson tags).toList :=
    beforeNul_eq_self fun hnul => absurd (printable_tagsJson hnul) (by decide)
  have hhead : ∀ text, ReadsHead tag text ↔ Like.matchAll sameLetter
      ((replaceQuotes (beforeNul tag.toList) ++
        if '\x00' ∈ tag.toList then [] else ['"', '%']).map likeToken) text = true := by
    intro text
    rw [List.map_append, Like.matchAll_append]
    simp only [← reads_iff]
    refine exists_congr fun found => exists_congr fun after => ?_
    refine and_congr_right fun _ => and_congr_right fun _ => ?_
    split
    · exact List.isEmpty_iff.symm
    · change _ ↔ Like.matchAll sameLetter [.lit '"', .many] after = true
      simp only [Like.matchAll_lit, hquote, Like.matchAll_many_nil, and_true]
      constructor
      · rintro ⟨rest, rfl⟩
        exact ⟨_, rest, rfl, rfl⟩
      · rintro ⟨_, rest, rfl, rfl⟩
        exact ⟨rest, rfl⟩
  rw [like, htext, beforeNul_tagPattern]
  change Like.matchAll sameLetter (.many :: .lit '"' :: List.map likeToken _) _ = true ↔ _
  rw [Like.matchAll_many]
  simp only [Like.matchAll_lit, hquote, ← hhead]
  constructor
  · rintro ⟨before, _, htext, _, rest, rfl, rfl, hrest⟩
    exact ⟨before, rest, htext, hrest⟩
  · rintro ⟨before, rest, htext, hrest⟩
    exact ⟨before, _, htext, _, rest, rfl, rfl, hrest⟩

/-! Tags that find themselves. -/

/-- A tag of whose JSON text only the quotes are escaped. -/
def QuotesOnly (tag : String) : Prop := ∀ c ∈ tag.toList, c ≠ '\\' ∧ 32 ≤ c.toNat

instance (tag : String) : Decidable (QuotesOnly tag) :=
  List.decidableBAll (fun c => c ≠ '\\' ∧ 32 ≤ c.toNat) tag.toList

/-- Each tag of a list stands in its text between two quotes. -/
theorem mem_listText {tag : String} {tags : List String} (h : tag ∈ tags) :
    ∃ before after, listText tags = before ++ '"' :: (escaped tag.toList ++ '"' :: after) := by
  induction tags with
  | nil => cases h
  | cons other rest ih =>
      rcases List.mem_cons.mp h with rfl | hrest
      · cases rest with
        | nil => exact ⟨[], [']'], by simp [listText]⟩
        | cons next rest => exact ⟨[], ',' :: listText (next :: rest), by simp [listText]⟩
      · obtain ⟨before, after, hafter⟩ := ih hrest
        cases rest with
        | nil => cases hrest
        | cons next rest =>
            refine ⟨'"' :: escaped other.toList ++ '"' :: ',' :: before, after, ?_⟩
            rw [listText, hafter]
            simp

theorem reads_escaped {word : List Char} (h : ∀ c ∈ word, c ≠ '\\' ∧ 32 ≤ c.toNat) :
    Reads word (escaped word) := by
  induction word with
  | nil => exact .nil
  | cons c word ih =>
      obtain ⟨⟨hslash, hprint⟩, hword⟩ := List.forall_mem_cons.mp h
      rw [escaped_cons]
      by_cases hquote : c = '"'
      · subst hquote
        exact .quote (ih hword)
      rw [jsonEscape_bare (by simp [isBare, hquote, hslash, hprint])]
      by_cases hmany : c = '%'
      · subst hmany
        exact .many ['%'] (ih hword)
      by_cases hone : c = '_'
      · subst hone
        exact .one '_' (ih hword)
      · exact .letter hmany hone hquote (sameLetter_self c) (ih hword)

theorem QuotesOnly.noNul {tag : String} (h : QuotesOnly tag) : '\x00' ∉ tag.toList :=
  fun hnul => absurd (h _ hnul).2 (by decide)

/-- Such a tag is a look-alike of itself. -/
theorem QuotesOnly.lookAlike {tag : String} (h : QuotesOnly tag) {tags : List String}
    (hmem : tag ∈ tags) : LookAlike tag tags := by
  obtain ⟨before, after, htext⟩ := mem_listText hmem
  refine ⟨'[' :: before, _, by rw [tagsJson_toList, htext]; rfl, escaped tag.toList, '"' :: after,
    rfl, ?_, ?_⟩
  · rw [beforeNul_eq_self h.noNul]
    exact reads_escaped h
  · rw [if_neg h.noNul]
    exact ⟨after, rfl⟩

/-! The plain tags. -/

/-- A word without wildcards whose JSON text differs from it by the escaped quotes alone. -/
def PlainWord (word : List Char) : Prop :=
  ∀ c ∈ word, c ≠ '\\' ∧ c ≠ '%' ∧ c ≠ '_' ∧ 32 ≤ c.toNat

instance (word : List Char) : Decidable (PlainWord word) :=
  List.decidableBAll (fun c => c ≠ '\\' ∧ c ≠ '%' ∧ c ≠ '_' ∧ 32 ≤ c.toNat) word

/-- A plain word stands for its JSON text. -/
theorem PlainWord.reads_iff {word : List Char} (h : PlainWord word) (text : List Char) :
    Reads word text ↔ Like.SameWord sameLetter (escaped word) text := by
  have htokens : (replaceQuotes word).map likeToken = (escaped word).map .lit := by
    induction word with
    | nil => rfl
    | cons c rest ih =>
        obtain ⟨⟨hslash, hmany, hone, hprint⟩, hrest⟩ := List.forall_mem_cons.mp h
        rw [replaceQuotes_cons, escaped_cons, List.map_append, List.map_append, ih hrest]
        congr 1
        by_cases hquote : c = '"'
        · subst hquote
          rfl
        · have hbare : isBare c = true := by simp [isBare, hquote, hslash, hprint]
          rw [if_neg hquote, jsonEscape_bare hbare]
          simp [likeToken, hmany, hone]
  rw [Execra.reads_iff, htokens, Like.matchAll_word]

/-- The characters that the pattern and the JSON text escape alike. -/
private def Aligned (word : List Char) : Prop := ∀ c ∈ word, c = '"' ∨ isBare c = true

private theorem PlainWord.aligned {word : List Char} (h : PlainWord word) : Aligned word := by
  intro c hc
  obtain ⟨hslash, -, -, hprint⟩ := h c hc
  by_cases hquote : c = '"'
  · exact Or.inl hquote
  · exact Or.inr (by simp [isBare, hquote, hslash, hprint])

/-- One unit of an escaped word is matched by one unit of an escaped string. -/
private theorem headMatch_unit {c : Char} (hc : c = '"' ∨ isBare c = true) (d : Char)
    (word rest : List Char) :
    HeadMatch (jsonEscape c ++ word) (jsonEscape d ++ rest) ↔
      sameLetter c d = true ∧ HeadMatch word rest := by
  rcases hc with rfl | hbare
  · change HeadMatch ('\\' :: '"' :: word) _ ↔ _
    cases hd : isBare d with
    | true =>
        rw [jsonEscape_bare hd, List.singleton_append, headMatch_cons, sameLetter_iff (by decide),
          sameLetter_iff (by decide)]
        refine iff_of_false ?_ ?_
        · rintro ⟨rfl, -⟩; cases hd
        · rintro ⟨rfl, -⟩; cases hd
    | false =>
        obtain ⟨second, tail, hescape, hsecond, htail, -⟩ := jsonEscape_special hd
        rw [hescape, List.cons_append, List.cons_append, headMatch_cons, headMatch_cons,
          sameLetter_iff (by decide), sameLetter_iff (by decide), sameLetter_iff (by decide),
          hsecond]
        constructor
        · rintro ⟨-, rfl, hhead⟩
          rw [htail rfl] at hhead
          exact ⟨rfl, hhead⟩
        · rintro ⟨rfl, hhead⟩
          rw [htail rfl]
          exact ⟨rfl, rfl, hhead⟩
  · rw [jsonEscape_bare hbare]
    cases hd : isBare d with
    | true => rw [jsonEscape_bare hd, List.singleton_append, List.singleton_append, headMatch_cons]
    | false =>
        obtain ⟨second, tail, hescape, -⟩ := jsonEscape_special hd
        rw [hescape, List.singleton_append, List.cons_append, headMatch_cons]
        refine iff_of_false ?_ ?_
        · rintro ⟨hsame, -⟩
          cases eq_of_sameLetter (by decide) hsame
          cases hbare
        · rintro ⟨hsame, -⟩
          cases eq_of_sameLetter (isFolded_special hd) hsame
          cases hbare.symm.trans hd

/-- Unit by unit, an escaped word is found at the head of an escaped string
exactly when it is that string, up to the case of letters. -/
private theorem headMatch_escaped {word : List Char} (h : Aligned word) (s rest : List Char) :
    HeadMatch (escaped word) (escaped s ++ '"' :: rest) ↔ Like.SameWord sameLetter word s := by
  induction word generalizing s with
  | nil =>
      rw [escaped_nil, headMatch_nil]
      cases s with
      | nil => simp [Like.SameWord]
      | cons d s =>
          obtain ⟨first, tail, hescape, hfirst⟩ := jsonEscape_head d
          simp [hescape, hfirst, Like.SameWord]
  | cons c word ih =>
      have hword : Aligned word := fun a ha => h a (List.mem_cons_of_mem _ ha)
      cases s with
      | nil =>
          obtain ⟨first, tail, hescape, hfirst⟩ := jsonEscape_head c
          rw [escaped_cons, hescape, escaped_nil, List.nil_append, List.cons_append, headMatch_cons]
          constructor
          · rintro ⟨hsame, -⟩
            exact absurd (eq_of_sameLetter (by decide) hsame) hfirst
          · intro hsame
            cases hsame
      | cons d s =>
          have hcons : Like.SameWord sameLetter (c :: word) (d :: s) ↔
              sameLetter c d = true ∧ Like.SameWord sameLetter word s := List.forall₂_cons
          rw [hcons, ← ih hword s, escaped_cons, escaped_cons, List.append_assoc]
          exact headMatch_unit (h c List.mem_cons_self) d _ _

/-- Behind the quote that ends a tag of the list comes a comma and a quote. -/
private theorem headMatch_separator {word : List Char} (h : Aligned word) (rest : List Char) :
    HeadMatch (escaped word) (',' :: '"' :: rest) ↔ word = [','] := by
  cases word with
  | nil =>
      rw [escaped_nil, headMatch_nil]
      simp
  | cons c word =>
      have hquote : ∀ word, HeadMatch (escaped word) ('"' :: rest) ↔ word = [] := by
        intro word
        cases word with
        | nil => simp [headMatch_nil]
        | cons d word =>
            obtain ⟨first, tail, hescape, hfirst⟩ := jsonEscape_head d
            rw [escaped_cons, hescape, List.cons_append, headMatch_cons]
            refine iff_of_false ?_ (by simp)
            rintro ⟨hsame, -⟩
            exact hfirst (eq_of_sameLetter (by decide) hsame)
      rcases h c List.mem_cons_self with rfl | hbare
      · change HeadMatch ('\\' :: '"' :: escaped word) _ ↔ _
        rw [headMatch_cons]
        refine iff_of_false ?_ (by simp)
        rintro ⟨hsame, -⟩
        exact absurd (eq_of_sameLetter (by decide) hsame) (by decide)
      · rw [escaped_cons, jsonEscape_bare hbare, List.cons_append, List.nil_append, headMatch_cons,
          hquote, List.cons.injEq]
        refine and_congr ⟨fun hsame => eq_of_sameLetter (by decide) hsame, ?_⟩ Iff.rfl
        rintro rfl
        exact sameLetter_self _

private theorem not_headMatch_bracket (word : List Char) : ¬ HeadMatch word [']'] := by
  cases word with
  | nil => rw [headMatch_nil]; simp
  | cons a word =>
      rw [headMatch_cons]
      exact fun h => not_headMatch_empty _ h.2

/-- A tag that a pattern takes for another one: they are the same up to the case
of ASCII letters, or one is so behind a quote of the other. -/
def Resembles (tag other : List Char) : Prop :=
  Like.SameWord sameLetter tag other ∨
    ∃ before tail, other = before ++ '"' :: tail ∧ Like.SameWord sameLetter tag tail

/-- A tag list in which the pattern of a plain tag finds something. -/
def ResemblesAny (tag : String) (tags : List String) : Prop :=
  (∃ other ∈ tags, Resembles tag.toList other.toList) ∨ (tag = "," ∧ 2 ≤ tags.length)

/-- What the word of a plain tag's pattern finds in a tag list. -/
private theorem occurs_listText {tag : String} (h : PlainWord tag.toList) (tags : List String) :
    Occurs (HeadMatch (escaped tag.toList)) (listText tags) ↔ ResemblesAny tag tags := by
  have hstring : ∀ (other : String) (rest : List Char),
      Occurs (HeadMatch (escaped tag.toList)) ('"' :: escaped other.toList ++ '"' :: rest) ↔
        Resembles tag.toList other.toList ∨ HeadMatch (escaped tag.toList) rest ∨
          Occurs (HeadMatch (escaped tag.toList)) rest := by
    intro other rest
    rw [List.cons_append, occurs_cons, occurs_escaped, headMatch_escaped h.aligned, Resembles]
    simp only [headMatch_escaped h.aligned, true_and, or_assoc]
  induction tags with
  | nil =>
      rw [listText, occurs_cons]
      simp [not_occurs_nil, ResemblesAny]
  | cons other rest ih =>
      cases rest with
      | nil =>
          rw [listText, hstring, occurs_cons]
          simp [not_headMatch_bracket, not_occurs_nil, ResemblesAny]
      | cons next rest =>
          obtain ⟨text, htext⟩ : ∃ text, listText (next :: rest) = '"' :: text := by
            cases rest <;> exact ⟨_, rfl⟩
          have hcomma : tag.toList = [','] ↔ tag = "," := by
            rw [← String.toList_inj]
            rfl
          have hrest : Occurs (HeadMatch (escaped tag.toList)) (listText (next :: rest)) ↔
              ResemblesAny tag (next :: rest) := ih
          rw [listText, hstring, htext, headMatch_separator h.aligned, ← htext, occurs_cons,
            hcomma, hrest]
          have hmany : 2 ≤ (other :: next :: rest).length := by simp
          constructor
          · rintro (hhead | hseparator | ⟨hquote, -⟩ | ⟨found, hmem, hfound⟩ | ⟨hseparator, -⟩)
            · exact Or.inl ⟨other, List.mem_cons_self, hhead⟩
            · exact Or.inr ⟨hseparator, hmany⟩
            · exact absurd hquote (by decide)
            · exact Or.inl ⟨found, List.mem_cons_of_mem _ hmem, hfound⟩
            · exact Or.inr ⟨hseparator, hmany⟩
          · rintro (⟨found, hmem, hfound⟩ | ⟨hseparator, -⟩)
            · rcases List.mem_cons.mp hmem with rfl | hmem
              · exact Or.inl hfound
              · exact Or.inr (Or.inr (Or.inr (Or.inl ⟨found, hmem, hfound⟩)))
            · exact Or.inr (Or.inl hseparator)

/-- The look-alikes of a plain tag. -/
theorem PlainWord.lookAlike_iff {tag : String} (h : PlainWord tag.toList) (tags : List String) :
    LookAlike tag tags ↔ ResemblesAny tag tags := by
  have hnul : '\x00' ∉ tag.toList := fun hnul => absurd (h _ hnul).2.2.2 (by decide)
  have hhead : ReadsHead tag = HeadMatch (escaped tag.toList) := by
    funext text
    simp only [ReadsHead, HeadMatch, beforeNul_eq_self hnul, if_neg hnul, h.reads_iff, eq_iff_iff]
    constructor
    · rintro ⟨found, _, rfl, hsame, rest, rfl⟩
      exact ⟨found, rest, rfl, hsame⟩
    · rintro ⟨found, rest, rfl, hsame⟩
      exact ⟨found, _, rfl, hsame, rest, rfl⟩
  rw [LookAlike, hhead, tagsJson_toList, occurs_cons, ← occurs_listText h]
  exact or_iff_right (fun hbracket => absurd hbracket.1 (by decide))

/-! Tags with a NUL. -/

private theorem length_escaped_of_sameWord {word s : List Char} (h : Aligned word)
    (hsame : Like.SameWord sameLetter word s) : (escaped word).length = (escaped s).length := by
  induction hsame with
  | nil => rfl
  | @cons c d word s hcd hsame ih =>
      obtain ⟨hc, hword⟩ := List.forall_mem_cons.mp h
      have hunit : (jsonEscape c).length = (jsonEscape d).length := by
        rcases hc with rfl | hbare
        · rw [(sameLetter_iff (by decide)).mp hcd]
        · cases hd : isBare d with
          | true => rw [jsonEscape_bare hbare, jsonEscape_bare hd]; rfl
          | false =>
              cases eq_of_sameLetter (isFolded_special hd) hcd
              cases hbare.symm.trans hd
      rw [escaped_cons, escaped_cons, List.length_append, List.length_append, hunit, ih hword]

/-- Nothing that a plain word stands for has a quote in it that ends a string. -/
private theorem not_sameWord_string {word : List Char} (h : Aligned word) (s rest : List Char) :
    ¬ Like.SameWord sameLetter (escaped word) (escaped s ++ '"' :: rest) := by
  intro hsame
  have hhead : HeadMatch (escaped word) (escaped s ++ '"' :: (rest ++ ['"'])) :=
    ⟨_, [], by simp, hsame⟩
  have hlength := length_escaped_of_sameWord h ((headMatch_escaped h s _).mp hhead)
  have htext := List.Forall₂.length_eq hsame
  rw [List.length_append, List.length_cons] at htext
  omega

private theorem not_sameWord_separator {word : List Char} (h : Aligned word) (rest : List Char) :
    ¬ Like.SameWord sameLetter (escaped word) (',' :: '"' :: rest) := by
  intro hsame
  have hhead : HeadMatch (escaped word) (',' :: '"' :: (rest ++ ['"'])) := ⟨_, [], by simp, hsame⟩
  rw [(headMatch_separator h _).mp hhead] at hsame
  have htext : [','].length = (',' :: '"' :: rest).length := List.Forall₂.length_eq hsame
  simp at htext

private theorem sameWord_bracket {word : List Char} (h : Aligned word) :
    Like.SameWord sameLetter (escaped word) [']'] ↔ word = [']'] := by
  constructor
  · intro hsame
    have hlength := List.Forall₂.length_eq hsame
    cases word with
    | nil => cases hlength
    | cons c word =>
        rcases h c List.mem_cons_self with rfl | hbare
        · rw [escaped_cons, List.length_append] at hlength
          change 2 + _ = 1 at hlength
          omega
        · rw [escaped_cons, jsonEscape_bare hbare] at hsame
          cases hsame with
          | cons hc hrest =>
              rw [eq_of_sameLetter (by decide) hc]
              cases word with
              | nil => rfl
              | cons d word =>
                  obtain ⟨first, tail, hescape, -⟩ := jsonEscape_head d
                  change List.Forall₂ _ (jsonEscape d ++ escaped word) [] at hrest
                  rw [hescape] at hrest
                  cases hrest
  · rintro rfl
    exact .cons (sameLetter_self _) .nil

/-- A tag that is plain up to its NUL is found in no list, or, if that is a closing bracket,
in every list that has a tag. -/
theorem lookAlike_of_nul {tag : String} (hnul : '\x00' ∈ tag.toList)
    (h : PlainWord (beforeNul tag.toList)) (tags : List String) :
    LookAlike tag tags ↔ beforeNul tag.toList = [']'] ∧ tags ≠ [] := by
  have hhead : ReadsHead tag = Like.SameWord sameLetter (escaped (beforeNul tag.toList)) := by
    funext text
    simp only [ReadsHead, if_pos hnul, h.reads_iff, eq_iff_iff]
    constructor
    · rintro ⟨found, _, rfl, hsame, rfl⟩
      rwa [List.append_nil]
    · exact fun hsame => ⟨text, [], (List.append_nil text).symm, hsame, rfl⟩
  rw [LookAlike, hhead, tagsJson_toList, occurs_cons,
    or_iff_right (fun h => absurd h.1 (by decide))]
  generalize beforeNul tag.toList = word at h
  have haligned := h.aligned
  have hstring : ∀ (other : String) (rest : List Char),
      Occurs (Like.SameWord sameLetter (escaped word))
        ('"' :: escaped other.toList ++ '"' :: rest) ↔
      Like.SameWord sameLetter (escaped word) rest ∨
        Occurs (Like.SameWord sameLetter (escaped word)) rest := by
    intro other rest
    rw [List.cons_append, occurs_cons, occurs_escaped]
    simp [not_sameWord_string haligned]
  induction tags with
  | nil =>
      rw [listText, occurs_cons]
      simp [not_occurs_nil]
  | cons other rest ih =>
      cases rest with
      | nil =>
          rw [listText, hstring, sameWord_bracket haligned, occurs_cons]
          simp [not_occurs_nil]
      | cons next rest =>
          obtain ⟨text, htext⟩ : ∃ text, listText (next :: rest) = '"' :: text := by
            cases rest <;> exact ⟨_, rfl⟩
          have hrest : Occurs (Like.SameWord sameLetter (escaped word)) (listText (next :: rest)) ↔
              word = [']'] ∧ next :: rest ≠ [] := ih
          rw [listText, hstring, occurs_cons, hrest, htext]
          simp [not_sameWord_separator haligned]

/-! The other tags. -/

theorem control_of_reads {tag text : List Char} (h : Reads tag text) {c : Char} (hc : c ∈ tag)
    (hcontrol : c.toNat < 32) : c ∈ text := by
  have hne : ∀ d : Char, 32 ≤ d.toNat → c ≠ d := by
    rintro d hd rfl
    omega
  have hfolded : isFolded c = false := isFolded_special (by simp [isBare, hcontrol])
  induction h with
  | nil => cases hc
  | many skipped h ih =>
      rcases List.mem_cons.mp hc with heq | hc
      · exact absurd heq (hne '%' (by decide))
      · exact List.mem_append_right _ (ih hc)
  | one d h ih =>
      rcases List.mem_cons.mp hc with heq | hc
      · exact absurd heq (hne '_' (by decide))
      · exact List.mem_cons_of_mem _ (ih hc)
  | quote h ih =>
      rcases List.mem_cons.mp hc with heq | hc
      · exact absurd heq (hne '"' (by decide))
      · exact List.mem_cons_of_mem _ (List.mem_cons_of_mem _ (ih hc))
  | letter hmany hone hquote hsame h ih =>
      rcases List.mem_cons.mp hc with rfl | hc
      · rw [(sameLetter_iff hfolded).mp hsame]
        exact List.mem_cons_self
      · exact List.mem_cons_of_mem _ (ih hc)

/-- A tag with a control character that `LIKE` reads has no look-alike. -/
theorem not_lookAlike_of_control {tag : String}
    (h : ∃ c ∈ beforeNul tag.toList, c.toNat < 32) (tags : List String) : ¬ LookAlike tag tags := by
  obtain ⟨c, hc, hcontrol⟩ := h
  rintro ⟨before, _, htext, found, after, rfl, hreads, -⟩
  have hfound := control_of_reads hreads hc hcontrol
  have hmem : c ∈ (tagsJson tags).toList := by
    rw [htext]
    simp [hfound]
  have hprint := printable_tagsJson hmem
  omega

/-- What is found in a list of one tag is found behind an escaped quote too. -/
theorem LookAlike.quoted {pattern tag : String} (h : LookAlike pattern [tag]) :
    LookAlike pattern ["\"" ++ tag] := by
  obtain ⟨before, rest, htext, hhead⟩ := h
  have hquoted : (tagsJson ["\"" ++ tag]).toList =
      ['[', '"', '\\'] ++ '"' :: escaped tag.toList ++ ['"', ']'] := by
    simp [tagsJson_toList, listText, jsonEscape]
  rw [tagsJson_toList] at htext
  cases before with
  | nil => exact absurd (List.cons.inj htext).1 (by decide)
  | cons a before =>
      have hlist : listText [tag] = before ++ '"' :: rest := (List.cons.inj htext).2
      refine ⟨['[', '"', '\\'] ++ before, rest, ?_, hhead⟩
      rw [hquoted, List.append_assoc, List.append_assoc, ← hlist]
      rfl

/-! The two filters. -/

/-- `list_jobs` with a tag filter and a limit that leaves nothing out returns
those of all jobs that `JobsQuery::matches` accepts. -/
def Store.FiltersExactly (store : Store) (tag : String) : Prop :=
  ∀ limit, LimitCovers limit store.jobs.length →
    store.listJobs limit { tag := some tag } =
      (store.listJobs limit {}).map (List.filter (JobsQuery.matches { tag := some tag }))

/-- The tag lists that are stored. -/
def Store.tagLists (store : Store) : List (List String) :=
  store.jobs.map (fun row => row.commandJson.value.tags)

/-- The pattern is refused when there is a row to look for. -/
theorem JobsFilter.refused_tag (tag : String) {limit : Nat} {rows : List JobRow}
    (hlimit : LimitCovers limit rows.length) :
    JobsFilter.refused { tag := some tag } limit rows = true ↔
      tooComplex (tagPattern tag) = true ∧ rows ≠ [] := by
  cases rows with
  | nil => simp [JobsFilter.refused]
  | cons row rows =>
      have hzero : limit ≠ 0 := hlimit.ne_zero (Nat.succ_ne_zero _)
      simp [JobsFilter.refused, JobsFilter.admits, hzero]

/-- A pattern that `LIKE` refuses filters nothing. -/
theorem Store.Written.accepted_of_exact {store : Store} (h : store.Written) {tag : String}
    (hexact : store.FiltersExactly tag) :
    store.jobs = [] ∨ tooComplex (tagPattern tag) = false := by
  by_contra hrefused
  obtain ⟨hsome, hlong⟩ := not_or.mp hrefused
  obtain ⟨all, hall, -⟩ := h.listed
  have hcovers := limitCovers_all store.jobs.length
  have heq := hexact _ hcovers
  rw [Store.listJobs_all hall hcovers, Store.listJobs, if_pos
    ((JobsFilter.refused_tag tag hcovers).mpr ⟨Bool.eq_true_of_not_eq_false hlong, hsome⟩)] at heq
  cases heq

/-- Where the pattern is accepted, exactness is a matter of each stored tag list. -/
theorem Store.Written.filtersExactly_of_accepted {store : Store} (h : store.Written) {tag : String}
    (hfits : store.jobs = [] ∨ tooComplex (tagPattern tag) = false) :
    store.FiltersExactly tag ↔ ∀ tags ∈ store.tagLists, (LookAlike tag tags ↔ tag ∈ tags) := by
  obtain ⟨all, hall, hcommands⟩ := h.listed
  let found (job : Job) : Bool := like (tagPattern tag) (tagsJson job.command.tags).toList
  let asked (job : Job) : Bool := JobsQuery.matches { tag := some tag } job
  have hasked : ∀ job, asked job = decide (tag ∈ job.command.tags) := by
    intro job
    simp [asked, JobsQuery.matches, List.any_eq, eq_comm]
  have hfound : ∀ row ∈ store.jobs, ∀ job, row.decode = .ok job →
      JobsFilter.admits { tag := some tag } row = found job := by
    intro row hrow job hdecode
    obtain ⟨job', hdecode', hcommand⟩ := (h row hrow).decode
    cases hdecode.symm.trans hdecode'
    simp [JobsFilter.admits, found, (h row hrow).tags, hcommand]
  have hpage : ∀ limit, LimitCovers limit store.jobs.length →
      store.listJobs limit { tag := some tag } = .ok (all.filter found) := by
    intro limit hlimit
    refine Store.listJobs_filter hall hfound hlimit ?_
    rw [← Bool.not_eq_true, JobsFilter.refused_tag tag hlimit]
    rintro ⟨hlong, hsome⟩
    rcases hfits with hnone | hshort
    · exact hsome hnone
    · exact absurd (hlong.symm.trans hshort) Bool.true_eq_false_eq_False
  have hlist : store.FiltersExactly tag ↔ all.filter found = all.filter asked := by
    constructor
    · intro hexact
      have hcovers := limitCovers_all store.jobs.length
      have heq := hexact _ hcovers
      rw [hpage _ hcovers, Store.listJobs_all hall hcovers] at heq
      exact Except.ok.inj heq
    · intro heq limit hlimit
      rw [hpage _ hlimit, Store.listJobs_all hall hlimit, heq]
      rfl
  have hsame : ∀ job, found job = asked job ↔
      (LookAlike tag job.command.tags ↔ tag ∈ job.command.tags) := by
    intro job
    rw [Bool.eq_iff_iff, hasked, decide_eq_true_eq, ← like_tagPattern_iff]
  rw [hlist, filter_eq_filter_iff]
  constructor
  · intro hjobs tags htags
    obtain ⟨row, hrow, rfl⟩ := List.mem_map.mp htags
    obtain ⟨job, hjob, hcommand⟩ := (hcommands _).mpr ⟨row, hrow, rfl⟩
    rw [← hcommand]
    exact (hsame job).mp (hjobs job hjob)
  · intro htags job hjob
    obtain ⟨row, hrow, hcommand⟩ := (hcommands job.command).mp ⟨job, hjob, rfl⟩
    exact (hsame job).mpr (htags _ (List.mem_map.mpr ⟨row, hrow, by rw [hcommand]⟩))

theorem Store.Written.filtersExactly_iff {store : Store} (h : store.Written) (tag : String) :
    store.FiltersExactly tag ↔
      (store.jobs = [] ∨ tooComplex (tagPattern tag) = false) ∧
        ∀ tags ∈ store.tagLists, (LookAlike tag tags ↔ tag ∈ tags) := by
  constructor
  · intro hexact
    have hfits := h.accepted_of_exact hexact
    exact ⟨hfits, (h.filtersExactly_of_accepted hfits).mp hexact⟩
  · rintro ⟨hfits, htags⟩
    exact (h.filtersExactly_of_accepted hfits).mpr htags

/-- A job with these tags, as `Runtime::spawn` stores it. -/
def taggedJob (uuid : Nat) (tags : List String) : Job :=
  Config.initialJob { id := ⟨uuid⟩, spec := { program := "tool", tags } }

theorem written_of_upserts (jobs : List Job) : (jobs.foldl Store.upsertJob {}).Written :=
  Store.Written.foldl (fun _ hrow => absurd hrow List.not_mem_nil) jobs

/-- Which stores `list_jobs` filters exactly for a tag: those for which `LIKE` accepts the
pattern, in which no job without the tag has a look-alike of it, and every job with the tag
has one. It is not all stores for any tag. A tag of whose text only the quotes are escaped is
a look-alike of itself, wildcards or not; the look-alikes of a plain tag are those that
resemble it; a control character leaves a tag without any, but for a NUL, at which the
pattern ends. -/
theorem tag_filter_exact_iff (tag : String) :
    (∃ jobs : List Job, ¬ (jobs.foldl Store.upsertJob {}).FiltersExactly tag) ∧
    (∀ jobs : List Job,
      let store := jobs.foldl Store.upsertJob {}
      store.FiltersExactly tag ↔
        (store.jobs = [] ∨ tooComplex (tagPattern tag) = false) ∧
        (∀ tags ∈ store.tagLists, tag ∉ tags → ¬ LookAlike tag tags) ∧
        ∀ tags ∈ store.tagLists, tag ∈ tags → LookAlike tag tags) ∧
    ∀ tags : List String,
      (QuotesOnly tag → tag ∈ tags → LookAlike tag tags) ∧
      (PlainWord tag.toList → (LookAlike tag tags ↔ ResemblesAny tag tags)) ∧
      ((∃ c ∈ beforeNul tag.toList, c.toNat < 32) → ¬ LookAlike tag tags) ∧
      ('\x00' ∈ tag.toList → PlainWord (beforeNul tag.toList) →
        (LookAlike tag tags ↔ beforeNul tag.toList = [']'] ∧ tags ≠ [])) := by
  refine ⟨?_, fun jobs => ?_, fun tags => ⟨fun h => h.lookAlike, fun h => h.lookAlike_iff tags,
    fun h => not_lookAlike_of_control h tags, fun hnul h => lookAlike_of_nul hnul h tags⟩⟩
  · by_contra hall
    have hone : ∀ tags, LookAlike tag tags ↔ tag ∈ tags := by
      intro tags
      have hexact := not_exists_not.mp hall [taggedJob 0 tags]
      have hwritten := written_of_upserts [taggedJob 0 tags]
      exact ((hwritten.filtersExactly_iff tag).mp hexact).2 tags (List.mem_singleton_self tags)
    have hquoted : tag ∈ ["\"" ++ tag] :=
      (hone _).mp ((hone [tag]).mpr (List.mem_singleton_self tag)).quoted
    have hlength := congrArg String.length (List.mem_singleton.mp hquoted)
    simp at hlength
  · refine ((written_of_upserts jobs).filtersExactly_iff tag).trans (and_congr_right fun _ => ?_)
    constructor
    · exact fun h => ⟨fun tags htags hnone hlook => hnone ((h tags htags).mp hlook),
        fun tags htags hmem => (h tags htags).mpr hmem⟩
    · rintro ⟨hextra, hmissing⟩ tags htags
      refine ⟨fun hlook => ?_, hmissing tags htags⟩
      by_contra hnone
      exact hextra tags htags hnone hlook

/-- A tag that no other stored tag is taken for. -/
theorem tag_filter_exact_ci :
    ([taggedJob 0 ["release", "ci"], taggedJob 1 ["nightly"]].foldl
      Store.upsertJob {}).FiltersExactly "ci" := by
  refine ((tag_filter_exact_iff "ci").2.1 _).mpr ⟨Or.inr (by decide), ?_, ?_⟩
  · intro tags htags hnone
    have hnightly : ¬ LookAlike "ci" ["nightly"] := by
      rw [← like_tagPattern_iff]
      decide
    rcases List.mem_cons.mp htags with rfl | htags
    · exact absurd (by decide) hnone
    · cases List.mem_singleton.mp htags
      exact hnightly
  · exact fun tags htags hmem => ((tag_filter_exact_iff "ci").2.2 tags).1 (by decide) hmem

/-- The pattern of a tag finds the same tag in capitals. -/
theorem tag_filter_finds_capitals :
    ¬ ([taggedJob 0 ["CI"]].foldl Store.upsertJob {}).FiltersExactly "ci" := by
  rw [(written_of_upserts _).filtersExactly_iff]
  rintro ⟨-, hexact⟩
  have hfound : LookAlike "ci" ["CI"] := by
    rw [← like_tagPattern_iff]
    decide
  have hmem : "ci" ∈ ["CI"] := (hexact ["CI"] (List.mem_singleton_self _)).mp hfound
  simp at hmem

end Execra
