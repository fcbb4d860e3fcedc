import Execra.Model.Interpret
import Mathlib.Data.Nat.Digits.Defs

/-!
Templates. A template is made of characters and of placeholders, a placeholder of a
dollar sign and all digits that follow it. `render` puts the captured text in the
place of each placeholder, in one pass.
-/

namespace Execra

inductive Piece where
  | char (c : Char)
  | placeholder (digits : List Char)
deriving DecidableEq

/-- The pieces of a template: a dollar sign that no digit follows is a character, and
a placeholder has all digits there are. -/
inductive Decomposes : List Char → List Piece → Prop where
  | nil : Decomposes [] []
  | char (c rest ps) (hlone : c = '$' → ∀ d ∈ rest.head?, d.isDigit = false)
      (h : Decomposes rest ps) : Decomposes (c :: rest) (.char c :: ps)
  | placeholder (digits rest ps) (hsome : digits ≠ []) (hdigits : ∀ d ∈ digits, d.isDigit = true)
      (hall : ∀ d ∈ rest.head?, d.isDigit = false) (h : Decomposes rest ps) :
      Decomposes ('$' :: digits ++ rest) (.placeholder digits :: ps)

def Piece.text : Piece → List Char
  | .char c => [c]
  | .placeholder digits => '$' :: digits

/-- The number that decimal digits denote, the first of them the highest. -/
def decimal (digits : List Char) : Nat :=
  Nat.ofDigits 10 (digits.reverse.map (fun d => d.toNat - '0'.toNat))

/-- What a piece is rendered as. A `usize` holds the numbers below 2 ^ 64. -/
def Piece.image (caps : Captures) : Piece → List Char
  | .char c => [c]
  | .placeholder digits =>
      if decimal digits < 2 ^ 64 then ((caps (decimal digits)).getD "").toList else []

/-- The texts meet between two pieces of the template they make up. -/
def CutsBetween (first second : List Char) : Prop :=
  ∃ ps qs, Decomposes (first ++ second) (ps ++ qs) ∧ ps.flatMap Piece.text = first

theorem digitsValue_eq_decimal (digits : List Char) :
    F64.digitsValue digits = decimal digits := by
  induction digits using List.reverseRecOn with
  | nil => rfl
  | append_singleton digits d ih =>
      rw [F64.digitsValue, List.foldl_append, ← F64.digitsValue, ih, decimal, decimal,
        List.reverse_append]
      simp only [List.foldl_cons, List.foldl_nil, List.reverse_singleton, List.singleton_append,
        List.map_cons, Nat.ofDigits_cons]
      omega

theorem captureText_eq_image (caps : Captures) (digits : List Char) :
    captureText caps digits = (Piece.placeholder digits).image caps := by
  rw [captureText, Piece.image, digitsValue_eq_decimal]

/-! A scan of the template. -/

/-- The pieces that the loop of `render` comes upon. -/
def piecesFrom : Option (List Char) → List Char → List Piece
  | none, [] => []
  | none, c :: rest =>
      if c = '$' then piecesFrom (some []) rest else .char c :: piecesFrom none rest
  | some [], [] => [.char '$']
  | some (d :: digits), [] => [.placeholder (d :: digits)]
  | some digits, c :: rest =>
      if c.isDigit then piecesFrom (some (digits ++ [c])) rest
      else
        (if digits = [] then .char '$' else .placeholder digits) ::
          if c = '$' then piecesFrom (some []) rest else .char c :: piecesFrom none rest

theorem renderFrom_eq (caps : Captures) (digits : Option (List Char)) (template : List Char) :
    renderFrom caps digits template =
      (piecesFrom digits template).flatMap (Piece.image caps) := by
  fun_induction piecesFrom digits template with
  | case1 => rfl
  | case2 rest ih => rw [renderFrom, if_pos rfl, ih]
  | case3 c rest hother ih =>
      rw [renderFrom, if_neg hother, ih]
      rfl
  | case4 => rfl
  | case5 d digits =>
      rw [renderFrom, captureText_eq_image]
      exact (List.append_nil _).symm
  | case6 digits c rest hdigit ih => rw [renderFrom, if_pos hdigit, ih]
  | case7 digits c rest hother ihdollar ihchar =>
      rw [renderFrom, if_neg hother, List.flatMap_cons, ihdollar, ihchar, captureText_eq_image]
      congr 1
      · split <;> rfl
      · split <;> rfl

/-- Once a character other than a digit comes, or the end, the digits are all there
are. -/
theorem piecesFrom_digits (before digits rest : List Char)
    (hdigits : ∀ d ∈ digits, d.isDigit = true) (hall : ∀ d ∈ rest.head?, d.isDigit = false) :
    piecesFrom (some before) (digits ++ rest) =
      (if before ++ digits = [] then .char '$' else .placeholder (before ++ digits)) ::
        piecesFrom none rest := by
  induction digits generalizing before with
  | nil =>
      rw [List.nil_append, List.append_nil]
      cases rest with
      | nil => cases before <;> rfl
      | cons c rest =>
          have hother : c.isDigit = false := hall c rfl
          simp only [piecesFrom, hother, Bool.false_eq_true, if_false]
  | cons d digits ih =>
      obtain ⟨hd, hrest⟩ := List.forall_mem_cons.mp hdigits
      rw [List.cons_append, piecesFrom, if_pos hd, ih (before ++ [d]) hrest]
      simp

/-- A decomposition is what the scan finds. -/
theorem Decomposes.eq_pieces {template : List Char} {ps : List Piece}
    (h : Decomposes template ps) : ps = piecesFrom none template := by
  induction h with
  | nil => rfl
  | char c rest ps hlone h ih =>
      by_cases hdollar : c = '$'
      · have hscan := piecesFrom_digits [] [] rest (List.forall_mem_nil _) (hlone hdollar)
        rw [piecesFrom, if_pos hdollar, ih, hdollar]
        exact hscan.symm
      · rw [piecesFrom, if_neg hdollar, ih]
  | placeholder digits rest ps hsome hdigits hall h ih =>
      have hscan := piecesFrom_digits [] digits rest hdigits hall
      rw [List.cons_append, piecesFrom, if_pos rfl, hscan, ih, List.nil_append, if_neg hsome]

/-- The text of the placeholder that the scan is in. -/
def begun : Option (List Char) → List Char
  | none => []
  | some digits => '$' :: digits

/-- The scan finds a decomposition. -/
theorem decomposes_piecesFrom (digits : Option (List Char)) (template : List Char)
    (hdigits : ∀ before ∈ digits, ∀ d ∈ before, d.isDigit = true) :
    Decomposes (begun digits ++ template) (piecesFrom digits template) := by
  fun_induction piecesFrom digits template with
  | case1 => exact .nil
  | case2 rest ih => exact ih (fun before hbefore => by cases hbefore; exact List.forall_mem_nil _)
  | case3 c rest hother ih =>
      apply Decomposes.char
      · exact fun hdollar => absurd hdollar hother
      · exact ih (fun before hbefore => by cases hbefore)
  | case4 => exact .char '$' [] [] (fun _ d hd => by cases hd) .nil
  | case5 d digits =>
      have hall := hdigits (d :: digits) rfl
      have hone := Decomposes.placeholder (d :: digits) [] [] (by simp) hall
        (fun d hd => by cases hd) .nil
      exact hone
  | case6 digits c rest hdigit ih =>
      have hnext := ih (fun before hbefore => by
        cases hbefore
        exact List.forall_mem_append.mpr ⟨hdigits digits rfl, List.forall_mem_singleton.mpr hdigit⟩)
      simpa [begun] using hnext
  | case7 digits c rest hother ihdollar ihchar =>
      have hhead : ∀ d ∈ (c :: rest).head?, d.isDigit = false := by
        intro d hd
        cases hd
        exact Bool.eq_false_of_not_eq_true hother
      have hrest : Decomposes (c :: rest)
          (if c = '$' then piecesFrom (some []) rest else .char c :: piecesFrom none rest) := by
        split
        · next hdollar =>
            rw [hdollar]
            exact ihdollar (fun before hbefore => by cases hbefore; exact List.forall_mem_nil _)
        · next hlone =>
            apply Decomposes.char
            · exact fun hdollar => absurd hdollar hlone
            · exact ihchar (fun before hbefore => by cases hbefore)
      by_cases hempty : digits = []
      · rw [hempty, if_pos rfl]
        exact .char '$' (c :: rest) _ (fun _ => hhead) hrest
      · rw [if_neg hempty]
        exact .placeholder digits (c :: rest) _ hempty (hdigits digits rfl) hhead hrest

/-- What comes first in a text comes first in the whole. -/
theorem forall_head?_of_append {p : Char → Prop} {first second : List Char}
    (h : ∀ c ∈ (first ++ second).head?, p c) : ∀ c ∈ first.head?, p c := by
  cases first with
  | nil => exact fun c hc => by cases hc
  | cons c rest => exact h

theorem Decomposes.of_cut {ps qs : List Piece} {first second : List Char}
    (h : Decomposes (first ++ second) (ps ++ qs)) (hcut : ps.flatMap Piece.text = first) :
    Decomposes first ps ∧ Decomposes second qs := by
  induction ps generalizing first with
  | nil =>
      obtain rfl : first = [] := hcut.symm
      exact ⟨.nil, h⟩
  | cons p ps ih =>
      cases p with
      | char c =>
          obtain rfl : c :: ps.flatMap Piece.text = first := hcut
          generalize htext : c :: ps.flatMap Piece.text ++ second = text at h
          cases h with
          | char _ rest _ hlone h =>
              obtain rfl : ps.flatMap Piece.text ++ second = rest := by simpa using htext
              obtain ⟨hfirst, hsecond⟩ := ih h rfl
              have hrest (hdollar : c = '$') := forall_head?_of_append (hlone hdollar)
              exact ⟨.char c _ ps hrest hfirst, hsecond⟩
      | placeholder digits =>
          obtain rfl : '$' :: digits ++ ps.flatMap Piece.text = first := hcut
          generalize htext : '$' :: digits ++ ps.flatMap Piece.text ++ second = text at h
          cases h with
          | placeholder _ rest _ hsome hdigits hall h =>
              obtain rfl : ps.flatMap Piece.text ++ second = rest := by simpa using htext
              obtain ⟨hfirst, hsecond⟩ := ih h rfl
              have hrest := forall_head?_of_append hall
              exact ⟨.placeholder digits _ ps hsome hdigits hrest hfirst, hsecond⟩

/-- `render` puts the image of each piece in its place: a template has one
decomposition, and is rendered as the images of its pieces. So templates that meet
between two pieces can be rendered apart from each other. -/
theorem render_substitutes (caps : Captures) :
    (∀ template : String, ∃ ps, Decomposes template.toList ps ∧
      (∀ qs, Decomposes template.toList qs → qs = ps) ∧
      render template caps = String.ofList (ps.flatMap (Piece.image caps))) ∧
    ∀ first second : String, CutsBetween first.toList second.toList →
      render (first ++ second) caps = render first caps ++ render second caps := by
  constructor
  · intro template
    refine ⟨piecesFrom none template.toList, ?_, fun qs hqs => hqs.eq_pieces, ?_⟩
    · exact decomposes_piecesFrom none template.toList (fun before hbefore => by cases hbefore)
    · rw [render, renderFrom_eq]
  · rintro first second ⟨ps, qs, hwhole, hcut⟩
    obtain ⟨hfirst, hsecond⟩ := hwhole.of_cut hcut
    simp only [render, renderFrom_eq, String.toList_append]
    rw [← hwhole.eq_pieces, ← hfirst.eq_pieces, ← hsecond.eq_pieces, List.flatMap_append,
      String.ofList_append]

/-- Captures that look like a placeholder themselves. -/
def dollarCaptures : Captures := fun group => if group = 1 then some "$2" else some "two"

theorem render_substitutes_adjacent :
    render ("a$1" ++ "$$2") dollarCaptures =
      render "a$1" dollarCaptures ++ render "$$2" dollarCaptures := by
  apply (render_substitutes dollarCaptures).2
  have hwhole := decomposes_piecesFrom none ("a$1".toList ++ "$$2".toList)
    (fun before hbefore => by cases hbefore)
  refine ⟨[.char 'a', .placeholder ['1']], [.char '$', .placeholder ['2']], ?_, by decide⟩
  have hpieces : piecesFrom none ("a$1".toList ++ "$$2".toList) =
      [.char 'a', .placeholder ['1']] ++ [.char '$', .placeholder ['2']] := by
    decide
  exact hpieces ▸ hwhole

end Execra
