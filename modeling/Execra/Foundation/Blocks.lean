import Mathlib.Data.List.Basic

/-!
Blocks in a sequence. A block begins with an element that opens it and ends with
the first one after that which closes it; between the two is its body. The end of
the sequence may cut the last block off. An element that opens a block means
nothing inside of one, and an element that closes a block means nothing outside.
-/

namespace Execra.Blocks

variable {α : Type*} (opens closes : α → Bool)

/-- What is outside of all blocks, from a place inside of one or outside. -/
def outsideFrom : Bool → List α → List α
  | _, [] => []
  | false, x :: rest => if opens x then outsideFrom true rest else x :: outsideFrom false rest
  | true, x :: rest => outsideFrom (!closes x) rest

/-- The bodies of the blocks, from a place inside of one, whose body so far is
given, or outside. -/
def bodiesFrom : Option (List α) → List α → List (List α)
  | none, [] => []
  | some body, [] => [body]
  | none, x :: rest => bodiesFrom (if opens x then some [] else none) rest
  | some body, x :: rest =>
      if closes x then body :: bodiesFrom none rest else bodiesFrom (some (body ++ [x])) rest

def outside (xs : List α) : List α := outsideFrom opens closes false xs

def bodies (xs : List α) : List (List α) := bodiesFrom opens closes none xs

end Execra.Blocks
