/-!
Texts with a given beginning or end. Both readings return what is left over, so that a caller
never cuts at an offset of its own.
-/

namespace Relocate.Text

/-- What follows `lead` in a text that starts with it. -/
def dropLead? (lead text : String) : Option String :=
  (List.isPrefixOf? lead.toList text.toList).map String.ofList

/-- What precedes `tail` in a text that ends with it. -/
def dropTail? (tail text : String) : Option String :=
  (List.isSuffixOf? tail.toList text.toList).map String.ofList

/-- The text starts with `lead`. -/
def startsWith (lead text : String) : Bool := lead.toList.isPrefixOf text.toList

/-- The part stands somewhere in the text. -/
def occursIn (part : List Char) : List Char → Bool
  | [] => part.isEmpty
  | c :: rest => part.isPrefixOf (c :: rest) || occursIn part rest

/-- The pieces of a list between the occurrences of a separator; a list without one is a single
piece. -/
def splitAt {α : Type} [BEq α] (separator : α) : List α → List (List α)
  | [] => [[]]
  | c :: rest =>
    if c == separator then [] :: splitAt separator rest
    else
      match splitAt separator rest with
      | [] => [[c]]
      | piece :: pieces => (c :: piece) :: pieces

end Relocate.Text
